import Reckon.Token.Scanner

namespace Reckon

abbrev Lexed := Except LexError Token

/-- A scanner and the token, if any, that was read ahead of time. -/
structure Lexer where
  scanner : Scanner
  peeked : Option Lexed := none
  deriving Inhabited

namespace Lexer

def ofSource (source : List Char) : Lexer := { scanner := { rest := source } }

/-- The place up to which the source has been read, also for a token that was only looked at. -/
def pos (l : Lexer) : Position := l.scanner.pos

def next (l : Lexer) : Lexed × Lexer :=
  match l.peeked with
  | some r => (r, { l with peeked := none })
  | none =>
    let (r, s) := l.scanner.next
    (r, { scanner := s })

/-- A token that was looked at is kept and handed out by the next call, so that looking ahead never
changes what is read. -/
def peek (l : Lexer) : Lexed × Lexer :=
  match l.peeked with
  | some r => (r, l)
  | none =>
    let (r, s) := l.scanner.next
    (r, { scanner := s, peeked := some r })

def pending (l : Lexer) : Nat := l.scanner.rest.length + if l.peeked.isSome then 1 else 0

theorem next_pending (l : Lexer) : l.next.2.pending ≤ l.pending := by
  unfold next pending
  split
  · simp
  · exact Nat.le_add_right_of_le l.scanner.next_rest_length

theorem next_pending_lt (l : Lexer) {t : Token} (h : l.next.1 = .ok t) (ht : t.kind ≠ .eof) :
    l.next.2.pending < l.pending := by
  revert h
  unfold next pending
  split
  · simp_all
  · intro h
    have := l.scanner.next_rest_length_lt h ht
    simp_all

end Lexer

/-- The tokens up to the end of the source, the end included, or up to the first error. -/
def Scanner.run (s : Scanner) : List Token × Option LexError :=
  match h : s.next with
  | (.error e, _) => ([], some e)
  | (.ok t, s') =>
    if ht : t.kind = .eof then ([t], none)
    else
      have : s'.rest.length < s.rest.length := by
        simpa [h] using s.next_rest_length_lt (congrArg Prod.fst h) ht
      let (ts, e) := s'.run
      (t :: ts, e)
termination_by s.rest.length

def lex (source : List Char) : List Token × Option LexError :=
  { rest := source : Scanner }.run

end Reckon
