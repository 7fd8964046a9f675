import Reckon.Number.Single

namespace Reckon

structure Decimal where
  digits : Nat
  exponent : Int
  deriving DecidableEq, Repr

def digitCount (n : Nat) : Nat := (Nat.toDigits 10 n).length

/-- The greatest `x` with `10 ^ x ≤ n / d`, for positive `n` and `d`. -/
def log10Ratio (n d : Nat) : Int :=
  if d ≤ n then (digitCount (n / d) : Int) - 1 else -(digitCount ((d - 1) / n) : Int)

/-- The numbers that round to a value `centre / scale`: from `low / scale` to `high / scale`, the
ends belonging to them or not. -/
structure Interval where
  low : Nat
  centre : Nat
  high : Nat
  scale : Nat
  closed : Bool

namespace Interval

def above (i : Interval) (factor a : Nat) : Bool :=
  if i.closed then i.low * factor ≤ a else i.low * factor < a

def below (i : Interval) (factor a : Nat) : Bool :=
  if i.closed then a ≤ i.high * factor else a < i.high * factor

/-- The best multiple of `10 ^ k` in the interval: of the centre's two neighbours among the
multiples, the nearer one that lies in it. -/
def best? (i : Interval) (k : Int) : Option Nat :=
  let unit := if 0 ≤ k then i.scale * Nat.pow 10 k.toNat else i.scale
  let factor := if 0 ≤ k then 1 else Nat.pow 10 (-k).toNat
  let centre := i.centre * factor
  let d := centre / unit
  let r := centre % unit
  let lower := i.above factor (d * unit)
  let upper := i.below factor ((d + 1) * unit)
  let nearerUp := unit < 2 * r ∨ 2 * r = unit ∧ d % 2 = 1
  if lower && (!upper || !nearerUp) then some d
  else if upper then some (d + 1)
  else none

/-- The decimal with the fewest digits, from `count` digits on, for a centre whose leading digit
stands for `10 ^ lead`. At most `fuel` further digits are tried. -/
def search (i : Interval) (lead : Int) (count : Nat) : Nat → Decimal
  | 0 => ⟨(i.best? (lead - count + 1)).getD 0, lead - count + 1⟩
  | fuel + 1 =>
    match i.best? (lead - count + 1) with
    | some d => ⟨d, lead - count + 1⟩
    | none => i.search lead (count + 1) fuel

end Interval

def Decimal.strip (d : Decimal) : Decimal :=
  if h : d.digits ≠ 0 ∧ d.digits % 10 = 0 then
    strip ⟨d.digits / 10, d.exponent + 1⟩
  else d
termination_by d.digits
decreasing_by omega

namespace Single

/-- The interval of the reals that round to a finite positive number. The step below a power of two
is half the step above it. -/
def interval (x : Single) : Interval :=
  let m := x.significand
  let narrow := x.fractionField = 0 ∧ 1 < x.exponentField
  let e := x.exponent - 2
  let up := if 0 ≤ e then Nat.pow 2 e.toNat else 1
  { low := (if narrow then 4 * m - 1 else 4 * m - 2) * up
    centre := 4 * m * up
    high := (4 * m + 2) * up
    scale := if 0 ≤ e then 1 else Nat.pow 2 (-e).toNat
    closed := m % 2 = 0 }

/-- The shortest decimal that reads back as the magnitude of a finite number. Nine digits always
suffice. -/
def shortest (x : Single) : Decimal :=
  if x.significand = 0 then ⟨0, 0⟩
  else
    let i := x.interval
    (i.search (log10Ratio i.centre i.scale) 1 8).strip

def positional (digits : List Char) (point : Int) : List Char :=
  if point ≤ 0 then '0' :: '.' :: List.replicate (-point).toNat '0' ++ digits
  else if (digits.length : Int) ≤ point then
    digits ++ List.replicate (point.toNat - digits.length) '0'
  else digits.take point.toNat ++ '.' :: digits.drop point.toNat

def exponentText (x : Int) : List Char :=
  let digits := Nat.toDigits 10 x.natAbs
  (if x < 0 then '-' else '+') :: List.replicate (2 - digits.length) '0' ++ digits

/-- A decimal in scientific notation, with leading digit of weight `10 ^ lead`. -/
def scientific (digits : List Char) (lead : Int) : List Char :=
  match digits with
  | [] => []
  | [d] => d :: 'e' :: exponentText lead
  | d :: ds => d :: '.' :: ds ++ 'e' :: exponentText lead

/-- The text of a decimal: scientific below `10 ^ -4` and from `10 ^ 6` on, else positional. -/
def decimalText (d : Decimal) : List Char :=
  let digits := Nat.toDigits 10 d.digits
  let lead := d.exponent + digits.length - 1
  if d.digits = 0 then ['0']
  else if lead < -4 ∨ 6 ≤ lead then scientific digits lead
  else positional digits (lead + 1)

def text (x : Single) : String :=
  if x.exponentField = 255 then
    if x.fractionField ≠ 0 then "NaN" else if x.negative then "-Inf" else "+Inf"
  else
    let body := decimalText x.shortest
    String.ofList (if x.negative then '-' :: body else body)

end Single

end Reckon
