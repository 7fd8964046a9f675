import Reckon.Text.Blank
import Reckon.Token.Error

namespace Reckon

def keywords : List String :=
  ["false", "true", "proc", "if", "else", "loop", "break", "print", "input"]

def operatorStarts : List Char := ['+', '-', '*', '/', '\\', '%', '=', '|', '&', '<', '>']

def compoundOperators : List (Char × Char) :=
  [('+', '='), ('-', '='), ('=', '='), ('>', '='), ('<', '='), ('%', '='), ('|', '|'), ('&', '&'),
    ('+', '+'), ('-', '-')]

inductive Bracket where
  | round
  | square
  | curly
  deriving DecidableEq, Repr, Inhabited

namespace Bracket

def opener : Bracket → Char
  | .round => '('
  | .square => '['
  | .curly => '\x7b'

def closer : Bracket → Char
  | .round => ')'
  | .square => ']'
  | .curly => '\x7d'

def ofOpener? (c : Char) : Option Bracket :=
  if c = '(' then some .round
  else if c = '[' then some .square
  else if c = '\x7b' then some .curly
  else none

def ofCloser? (c : Char) : Option Bracket :=
  if c = ')' then some .round
  else if c = ']' then some .square
  else if c = '\x7d' then some .curly
  else none

end Bracket

structure Nesting where
  round : Nat := 0
  square : Nat := 0
  curly : Nat := 0
  deriving DecidableEq, Repr, Inhabited

namespace Nesting

def get (n : Nesting) : Bracket → Nat
  | .round => n.round
  | .square => n.square
  | .curly => n.curly

def set (n : Nesting) (b : Bracket) (count : Nat) : Nesting :=
  match b with
  | .round => { n with round := count }
  | .square => { n with square := count }
  | .curly => { n with curly := count }

@[simp] theorem get_set_self (n : Nesting) (b : Bracket) (k : Nat) : (n.set b k).get b = k := by
  cases b <;> rfl

theorem get_set_of_ne (n : Nesting) {b b' : Bracket} (k : Nat) (h : b' ≠ b) :
    (n.set b k).get b' = n.get b' := by
  cases b <;> cases b' <;> first | rfl | exact absurd rfl h

end Nesting

/-- The rest of a numeral or a string: the text it contributes, whether it is well formed, what was
taken from the source and what is left. -/
structure Tail where
  raw : List Char
  valid : Bool
  point : Bool := false
  taken : List Char
  rest : List Char
  deriving Repr

namespace Tail

def keep (c : Char) (t : Tail) : Tail := { t with raw := c :: t.raw, taken := c :: t.taken }

def drop (c : Char) (t : Tail) : Tail := { t with taken := c :: t.taken }

@[simp] theorem keep_taken (c : Char) (t : Tail) : (t.keep c).taken = c :: t.taken := rfl
@[simp] theorem keep_rest (c : Char) (t : Tail) : (t.keep c).rest = t.rest := rfl
@[simp] theorem drop_taken (c : Char) (t : Tail) : (t.drop c).taken = c :: t.taken := rfl
@[simp] theorem drop_rest (c : Char) (t : Tail) : (t.drop c).rest = t.rest := rfl

end Tail

def startsWithDigit : List Char → Bool
  | [] => false
  | c :: _ => c.isDigit

/-- Reads a numeral on. `point` says whether it has a point, `digit` whether its last character is a
digit. An underscore between two digits is dropped; a misplaced one, a second point or a letter is
taken and spoils the numeral. -/
def numeralTail (point digit : Bool) : List Char → Tail
  | [] => { raw := [], valid := true, point, taken := [], rest := [] }
  | c :: cs =>
    if c.isDigit then (numeralTail point true cs).keep c
    else if c = '_' then
      if digit && startsWithDigit cs then (numeralTail point true cs).drop c
      else { raw := [c], valid := false, point, taken := [c], rest := cs }
    else if c = '.' ∧ !point then (numeralTail true false cs).keep c
    else if c = '.' ∨ c.isAlpha then
      { raw := [c], valid := false, point, taken := [c], rest := cs }
    else { raw := [], valid := true, point, taken := [], rest := c :: cs }

/-- Reads a string on, up to its delimiter. A backslash is dropped, and a double quote directly
after one does not end the string; `escaped` says whether a backslash has just been read. -/
def stringTail (delimiter : Char) (escaped : Bool) : List Char → Tail
  | [] => { raw := [], valid := false, taken := [], rest := [] }
  | c :: cs =>
    if escaped ∧ c = '"' then (stringTail delimiter false cs).keep c
    else if c = delimiter then { raw := [], valid := true, taken := [c], rest := cs }
    else if c = '\\' then (stringTail delimiter true cs).drop c
    else (stringTail delimiter false cs).keep c

theorem numeralTail_taken_append_rest (point digit : Bool) (cs : List Char) :
    (numeralTail point digit cs).taken ++ (numeralTail point digit cs).rest = cs := by
  induction cs generalizing point digit with
  | nil => rfl
  | cons c cs ih =>
    rw [numeralTail]
    split
    · simp [ih]
    · split
      · split
        · simp [ih]
        · rfl
      · split
        · simp [ih]
        · split <;> rfl

theorem stringTail_taken_append_rest (delimiter : Char) (escaped : Bool) (cs : List Char) :
    (stringTail delimiter escaped cs).taken ++ (stringTail delimiter escaped cs).rest = cs := by
  induction cs generalizing escaped with
  | nil => rfl
  | cons c cs ih =>
    rw [stringTail]
    split
    · simp [ih]
    · split
      · rfl
      · split <;> simp [ih]

def isNameChar (c : Char) : Bool := c.isAlphanum || c = '_'

/-- What was read: a lexeme or a fault, the nesting after it, what was taken and what is left. -/
structure Reading where
  result : Except LexFault Lexeme
  nesting : Nesting
  taken : List Char
  rest : List Char

/-- Reads the lexeme that starts with `c`. After a fault, what was taken stays taken and reading may
go on behind it. -/
def readLexeme (nesting : Nesting) (c : Char) (cs : List Char) : Reading :=
  match Bracket.ofOpener? c with
  | some b =>
    let depth := nesting.get b
    ⟨.ok (.opening c depth), nesting.set b (depth + 1), [c], cs⟩
  | none =>
  match Bracket.ofCloser? c with
  | some b =>
    match nesting.get b with
    | 0 => ⟨.error (.unopened c b.opener), nesting, [c], cs⟩
    | depth + 1 => ⟨.ok (.closing c depth), nesting.set b depth, [c], cs⟩
  | none =>
  if c.isDigit ∨ c = '.' then
    let tail := numeralTail (c = '.') c.isDigit cs
    let raw := c :: tail.raw
    ⟨if tail.valid then .ok (.numeral raw tail.point) else .error (.invalidNumber (.ofChars raw)),
      nesting, c :: tail.taken, tail.rest⟩
  else if c = '"' ∨ c = apostrophe then
    let tail := stringTail c false cs
    ⟨if tail.valid then .ok (.plain .string tail.raw) else .error .unterminatedString,
      nesting, c :: tail.taken, tail.rest⟩
  else if operatorStarts.contains c then
    match cs with
    | d :: ds =>
      if compoundOperators.contains (c, d) then
        ⟨.ok (.plain .operator [c, d]), nesting, [c, d], ds⟩
      else ⟨.ok (.plain .operator [c]), nesting, [c], cs⟩
    | [] => ⟨.ok (.plain .operator [c]), nesting, [c], []⟩
  else if c = ',' ∨ c = ';' then ⟨.ok (.separator c), nesting, [c], cs⟩
  else if c = '#' then
    let comment := cs.takeWhile (· ≠ '\n')
    ⟨.ok (.plain .comment comment), nesting, c :: comment, cs.dropWhile (· ≠ '\n')⟩
  else if c = '\n' then ⟨.ok (.plain .eol [c]), nesting, [c], cs⟩
  else if c.isAlpha ∨ c = '_' then
    let name := c :: cs.takeWhile isNameChar
    ⟨.ok (.plain (if keywords.contains (String.ofList name) then .keyword else .identifier) name),
      nesting, name, cs.dropWhile isNameChar⟩
  else ⟨.error (.unknownSymbol (.ofChars [c])), nesting, [c], cs⟩

theorem readLexeme_taken_append_rest (n : Nesting) (c : Char) (cs : List Char) :
    (readLexeme n c cs).taken ++ (readLexeme n c cs).rest = c :: cs := by
  unfold readLexeme
  split
  · rfl
  · split
    · split <;> rfl
    · split
      · simp [numeralTail_taken_append_rest]
      · split
        · simp [stringTail_taken_append_rest]
        · split
          · split
            · split <;> rfl
            · rfl
          · split
            · rfl
            · split
              · simp
              · split
                · rfl
                · split
                  · simp
                  · rfl

theorem readLexeme_taken_ne_nil (n : Nesting) (c : Char) (cs : List Char) :
    (readLexeme n c cs).taken ≠ [] := by
  unfold readLexeme
  repeat' split
  all_goals simp

theorem readLexeme_rest_length (n : Nesting) (c : Char) (cs : List Char) :
    (readLexeme n c cs).rest.length < (c :: cs).length := by
  have h := congrArg List.length (readLexeme_taken_append_rest n c cs)
  have h' := List.length_pos_iff.2 (readLexeme_taken_ne_nil n c cs)
  rw [List.length_append] at h
  omega

structure Scanner where
  rest : List Char
  pos : Position := .start
  nesting : Nesting := {}
  deriving DecidableEq, Repr, Inhabited

namespace Scanner

/-- White space that separates tokens: all but the line break, which is one. -/
def isGap (c : Char) : Bool := c ≠ '\n' && Text.isBlank c

def skipGap (s : Scanner) : Scanner :=
  { s with rest := s.rest.dropWhile isGap, pos := s.pos.advance (s.rest.takeWhile isGap) }

/-- Reads the next token or error. At the end of the source it yields the end, again and again. -/
def next (s : Scanner) : Except LexError Token × Scanner :=
  let t := s.skipGap
  match t.rest with
  | [] => (.ok { Lexeme.eof with pos := t.pos }, t)
  | c :: cs =>
    let r := readLexeme t.nesting c cs
    let after : Scanner := ⟨r.rest, t.pos.advance r.taken, r.nesting⟩
    match r.result with
    | .ok lexeme => (.ok { lexeme with pos := t.pos }, after)
    | .error fault => (.error ⟨fault, t.pos⟩, after)

theorem skipGap_rest_length (s : Scanner) : s.skipGap.rest.length ≤ s.rest.length := by
  exact (List.dropWhile_suffix _).length_le

theorem next_rest_length (s : Scanner) : s.next.2.rest.length ≤ s.rest.length := by
  have hs := s.skipGap_rest_length
  unfold next
  dsimp only
  split
  · exact hs
  case h_2 c cs hc =>
    have hr := readLexeme_rest_length s.skipGap.nesting c cs
    rw [hc] at hs
    split <;> exact Nat.le_of_lt (Nat.lt_of_lt_of_le hr hs)

theorem next_rest_length_lt (s : Scanner) {t : Token} (h : s.next.1 = .ok t)
    (ht : t.kind ≠ .eof) : s.next.2.rest.length < s.rest.length := by
  have hs := s.skipGap_rest_length
  revert h
  unfold next
  dsimp only
  split
  · rintro ⟨⟩
    exact absurd rfl ht
  case h_2 c cs hc =>
    have hr := readLexeme_rest_length s.skipGap.nesting c cs
    rw [hc] at hs
    intro _
    split <;> exact Nat.lt_of_lt_of_le hr hs

end Scanner

end Reckon
