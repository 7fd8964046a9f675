namespace Reckon

abbrev Bytes := List UInt8

/-- One element of a text: a code point, or a byte that is part of no well-formed code point. -/
inductive Piece where
  | char (c : Char)
  | stray (b : UInt8)
  deriving DecidableEq, Repr, Inhabited

abbrev Text := List Piece

def replacement : Char := '�'

namespace Piece

/-- The character a reader sees: a stray byte is shown as the replacement character. -/
def shown : Piece → Char
  | .char c => c
  | .stray _ => replacement

def bytes : Piece → Bytes
  | .char c => String.utf8EncodeChar c
  | .stray b => [b]

end Piece

def charOfCode (code : Int) : Char :=
  if 0 ≤ code ∧ code.toNat.isValidChar then Char.ofNat code.toNat else replacement

def utf8 (s : String) : Bytes := s.toList.flatMap String.utf8EncodeChar

namespace Text

def ofChars (cs : List Char) : Text := cs.map .char

def ofString (s : String) : Text := ofChars s.toList

instance : Coe String Text := ⟨ofString⟩

def chars (t : Text) : List Char := t.map Piece.shown

def toString (t : Text) : String := String.ofList t.chars

def bytes (t : Text) : Bytes := t.flatMap Piece.bytes

@[simp] theorem chars_ofChars (cs : List Char) : chars (ofChars cs) = cs := by
  induction cs with
  | nil => rfl
  | cons c cs ih => simpa [chars, ofChars, Piece.shown] using ih

@[simp] theorem toString_ofString (s : String) : toString (ofString s) = s := by
  simp [toString, ofString]

theorem ofChars_injective {cs ds : List Char} (h : ofChars cs = ofChars ds) : cs = ds := by
  rw [← chars_ofChars cs, h, chars_ofChars]

def isContinuation (b : UInt8) : Bool := 0x80 ≤ b && b ≤ 0xBF

/-- A code point of `count` continuation bytes after a lead that contributes `high`; values below
`least` have a shorter form and are refused. -/
def continued (high count least : Nat) (rest : Bytes) : Option (Char × Nat) :=
  let tail := rest.take count
  let code := tail.foldl (fun n b => n * 64 + (b.toNat - 0x80)) high
  if tail.length = count ∧ tail.all isContinuation ∧ least ≤ code ∧ code.isValidChar then
    some (Char.ofNat code, count)
  else none

/-- The code point in front of some bytes, and how many bytes follow its first. -/
def front (b : UInt8) (rest : Bytes) : Option (Char × Nat) :=
  if b < 0x80 then some (Char.ofNat b.toNat, 0)
  else if b < 0xC0 then none
  else if b < 0xE0 then continued (b.toNat - 0xC0) 1 0x80 rest
  else if b < 0xF0 then continued (b.toNat - 0xE0) 2 0x800 rest
  else if b < 0xF8 then continued (b.toNat - 0xF0) 3 0x10000 rest
  else none

/-- Reads UTF-8; a byte that starts no code point is kept as a stray. -/
def decode : Bytes → Text
  | [] => []
  | b :: rest =>
    match front b rest with
    | some (c, n) => .char c :: decode (rest.drop n)
    | none => .stray b :: decode rest
termination_by bytes => bytes.length
decreasing_by all_goals (simp only [List.length_drop, List.length_cons]; omega)

end Text

end Reckon
