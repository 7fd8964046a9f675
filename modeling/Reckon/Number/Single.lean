namespace Reckon

/-- A single-precision number by its bits: a sign, eight bits of exponent, twenty-three of fraction.
A finite one is `significand * 2 ^ exponent`. -/
structure Single where
  bits : UInt32
  deriving DecidableEq, Repr, Inhabited

namespace Single

def negative (x : Single) : Bool := Nat.pow 2 31 ≤ x.bits.toNat

def exponentField (x : Single) : Nat := x.bits.toNat / Nat.pow 2 23 % Nat.pow 2 8

def fractionField (x : Single) : Nat := x.bits.toNat % Nat.pow 2 23

def isFinite (x : Single) : Bool := x.exponentField != 255

def significand (x : Single) : Nat :=
  if x.exponentField = 0 then x.fractionField else Nat.pow 2 23 + x.fractionField

def exponent (x : Single) : Int :=
  if x.exponentField = 0 then -149 else (x.exponentField : Int) - 150

def ofMagnitude (negative : Bool) (magnitude : Nat) : Single :=
  ⟨UInt32.ofNat (if negative then magnitude + Nat.pow 2 31 else magnitude)⟩

def infinity : Nat := 255 * Nat.pow 2 23

def undefined : Single := ⟨0x7FC00000⟩

end Single

/-- `n / d` rounded to the nearest whole number, a tie going to the even one. -/
def roundDiv (n d : Nat) : Nat :=
  let q := n / d
  let r := n % d
  if d < 2 * r ∨ 2 * r = d ∧ q % 2 = 1 then q + 1 else q

/-- `n / d * 2 ^ -e` as a ratio. -/
def scaleRatio (n d : Nat) (e : Int) : Nat × Nat :=
  if 0 ≤ e then (n, d * Nat.pow 2 e.toNat) else (n * Nat.pow 2 (-e).toNat, d)

/-- The greatest `k` with `2 ^ k ≤ n / d`, for positive `n` and `d`. -/
def log2Ratio (n d : Nat) : Int :=
  let k := (n.log2 : Int) - d.log2
  let (a, b) := scaleRatio n d k
  if b ≤ a then k else k - 1

/-- The magnitude nearest to `n / d`, for positive `d`; it is at least `infinity` when the ratio is
too large for a finite number. -/
def Single.magnitudeOfRatio (n d : Nat) : Nat :=
  if n = 0 then 0
  else
    let e := max (log2Ratio n d - 23) (-149)
    let (a, b) := scaleRatio n d e
    (e + 149).toNat * Nat.pow 2 23 + roundDiv a b

def Single.ofRatio? (negative : Bool) (n d : Nat) : Option Single :=
  let magnitude := magnitudeOfRatio n d
  if magnitude < infinity then some (ofMagnitude negative magnitude) else none

end Reckon
