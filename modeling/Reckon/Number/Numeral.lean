import Reckon.Number.Decimal
import Reckon.Number.Single

namespace Reckon

def baseDigit? (base : Nat) (c : Char) : Option Nat :=
  if c.isDigit then some (c.toNat - '0'.toNat)
  else if base = 16 ∧ 'a' ≤ c.toLower ∧ c.toLower ≤ 'f' then
    some (c.toLower.toNat - 'a'.toNat + 10)
  else none

/-- The digits before an exponent: their value without the point, how many follow the point, and
whether there is a point and a digit. -/
structure Mantissa where
  value : Nat := 0
  places : Nat := 0
  point : Bool := false
  any : Bool := false

/-- Reads the digits before an exponent. Underscores are passed over here. -/
def Mantissa.read (base : Nat) (m : Mantissa) : List Char → Mantissa × List Char
  | [] => (m, [])
  | c :: cs =>
    if c = '_' then m.read base cs
    else if c = '.' ∧ !m.point then { m with point := true }.read base cs
    else
      match baseDigit? base c with
      | some d =>
        { value := m.value * base + d
          places := if m.point then m.places + 1 else m.places
          point := m.point
          any := true : Mantissa }.read base cs
      | none => (m, c :: cs)

/-- Reads the digits of an exponent. Once it has reached ten thousand it grows no more. -/
def readExponentDigits (n : Nat) : List Char → Nat × List Char
  | [] => (n, [])
  | c :: cs =>
    if c = '_' then readExponentDigits n cs
    else if c.isDigit then
      readExponentDigits (if n < 10000 then n * 10 + digitValue c else n) cs
    else (n, c :: cs)

def readExponent? (mark : Char) : List Char → Option (Int × List Char)
  | [] => some (0, [])
  | c :: cs =>
    if c.toLower = mark then
      let (negative, ds) := splitSign cs
      match ds with
      | d :: _ =>
        if d.isDigit then
          let (n, rest) := readExponentDigits 0 ds
          some (if negative then -n else n, rest)
        else none
      | [] => none
    else some (0, c :: cs)

inductive Grouping where
  | start
  | digit
  | underscore
  | other
  deriving DecidableEq

/-- Whether every underscore follows a digit and is followed by one. -/
def wellGrouped (hexadecimal : Bool) (last : Grouping) : List Char → Bool
  | [] => last ≠ .underscore
  | c :: cs =>
    if (baseDigit? (if hexadecimal then 16 else 10) c).isSome then wellGrouped hexadecimal .digit cs
    else if c = '_' then last = .digit && wellGrouped hexadecimal .underscore cs
    else last ≠ .underscore && wellGrouped hexadecimal .other cs

/-- Whether the underscores of an unsigned numeral only group digits; a base mark counts as one. -/
def underscoresAllowed : List Char → Bool
  | '0' :: x :: cs =>
    if x.toLower = 'x' then wellGrouped true .digit cs
    else if x.toLower = 'b' ∨ x.toLower = 'o' then wellGrouped false .digit cs
    else wellGrouped false .start ('0' :: x :: cs)
  | cs => wellGrouped false .start cs

def splitBase : List Char → Bool × List Char
  | '0' :: x :: c :: cs => if x.toLower = 'x' then (true, c :: cs) else (false, '0' :: x :: c :: cs)
  | cs => (false, cs)

/-- The number nearest to a finite numeral without its sign, if it is well formed and not too
large. -/
def unsigned? (negative : Bool) (cs : List Char) : Option Single :=
  let (hexadecimal, body) := splitBase cs
  let (m, rest) := Mantissa.read (if hexadecimal then 16 else 10) {} body
  if !m.any then none
  else if hexadecimal ∧ rest = [] then none
  else
    match readExponent? (if hexadecimal then 'p' else 'e') rest with
    | some (e, []) =>
      if cs.contains '_' ∧ !underscoresAllowed cs then none
      else if m.value = 0 then some (Single.ofMagnitude negative 0)
      else if hexadecimal then
        let k := e - 4 * m.places
        if 0 ≤ k then Single.ofRatio? negative (m.value * Nat.pow 2 k.toNat) 1
        else Single.ofRatio? negative m.value (Nat.pow 2 (-k).toNat)
      else
        let k := e - m.places
        if 0 ≤ k then Single.ofRatio? negative (m.value * Nat.pow 10 k.toNat) 1
        else Single.ofRatio? negative m.value (Nat.pow 10 (-k).toNat)
    | _ => none

def Single.read? (cs : List Char) : Option Single :=
  let (negative, body) := splitSign cs
  let word := String.ofList (body.map Char.toLower)
  if word = "inf" ∨ word = "infinity" then some (ofMagnitude negative infinity)
  else if word = "nan" ∧ body = cs then some undefined
  else unsigned? negative body

end Reckon
