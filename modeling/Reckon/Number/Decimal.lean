namespace Reckon

def digitValue (c : Char) : Nat := c.toNat - '0'.toNat

def ofDigits (ds : List Char) : Nat := ds.foldl (fun n d => 10 * n + digitValue d) 0

def decimal? (cs : List Char) : Option Nat :=
  if cs ≠ [] ∧ cs.all Char.isDigit then some (ofDigits cs) else none

/-- Splits a sign off; true is a minus. -/
def splitSign : List Char → Bool × List Char
  | '+' :: cs => (false, cs)
  | '-' :: cs => (true, cs)
  | cs => (false, cs)

def int32? (cs : List Char) : Option Int32 :=
  let (negative, digits) := splitSign cs
  match decimal? digits with
  | none => none
  | some n =>
    if n < Nat.pow 2 31 ∨ negative ∧ n = Nat.pow 2 31 then
      some (Int32.ofInt (if negative then -n else n))
    else none

end Reckon
