import Reckon.Expr.Error
import Reckon.Token.Lexer

namespace Reckon

structure Cursor where
  current : Token
  lexer : Lexer
  deriving Inhabited

structure ParseFailure where
  error : ParseError
  lexer : Lexer
  deriving Inhabited

/-- What can be noted of a parse: a parser is entered or goes round a loop, the lexer is asked for a
token, and the token `found` is compared with the bracket that closes `opener`. -/
inductive Event where
  | call
  | read (result : Lexed)
  | check (bracket : Bracket) (opener found : Token)

/-- What a parser needs of the monad that it runs in. -/
class Watch (m : Type → Type) where
  stop {α : Type} : ParseFailure → m α
  note : Event → m Unit

@[default_instance] instance : Watch (Except ParseFailure) where
  stop := .error
  note _ := .ok ()

theorem note_bind {α : Type} (event : Event) (x : Except ParseFailure α) :
    (do Watch.note event; x) = x := rfl

namespace Cursor

/-- A bound on the tokens from the current one to the end. Every token that is taken makes it
smaller, which is why parsing ends. -/
def size (c : Cursor) : Nat := c.lexer.pending + if c.current.kind = .eof then 0 else 1

def fail (c : Cursor) (fault : ParseFault) (production expected : String) : ParseFailure :=
  ⟨{ fault, production, expected, found := c.current, pos := c.current.pos }, c.lexer⟩

def malformed (c : Cursor) (error : LiteralError) : ParseFailure :=
  ⟨{ fault := .literal, production := "factor", found := c.current, pos := c.current.pos,
     cause := some (.literal error) }, c.lexer⟩

def unexpected (c : Cursor) (want : Lexeme) : ParseFailure :=
  ⟨{ fault := .unexpectedToken, expected := want.describe, found := c.current,
     pos := c.current.pos,
     cause := some (.lexical ⟨.unexpected { want with } c.current, c.current.pos⟩) }, c.lexer⟩

def lexicalFailure (found : Token) (error : LexError) (lexer : Lexer) : ParseFailure :=
  ⟨{ fault := .lexical, found, pos := error.pos, cause := some (.lexical error) }, lexer⟩

abbrev Smaller (c : Cursor) := { d : Cursor // d.size < c.size }

theorem size_lt_of_next {c : Cursor} {t : Token} {l : Lexer} (h : c.current.kind ≠ .eof)
    (hn : c.lexer.next = (.ok t, l)) : size ⟨t, l⟩ < c.size := by
  have hle := c.lexer.next_pending
  simp only [hn] at hle
  simp only [size, h, if_false]
  by_cases ht : t.kind = .eof
  · simp only [ht, if_true]
    omega
  · have hlt := c.lexer.next_pending_lt (congrArg Prod.fst hn) ht
    simp only [hn] at hlt
    simp only [ht, if_false]
    omega

variable {m : Type → Type} [Monad m] [Watch m]

def ofLexer (l : Lexer) : m Cursor := do
  Watch.note (.read l.next.1)
  match l.next with
  | (.ok t, l') => return ⟨t, l'⟩
  | (.error e, l') => Watch.stop (lexicalFailure .zero e l')

def take (c : Cursor) (h : c.current.kind ≠ .eof) : m (Smaller c) := do
  Watch.note (.read c.lexer.next.1)
  match hn : c.lexer.next with
  | (.ok t, l) => return ⟨⟨t, l⟩, size_lt_of_next h hn⟩
  | (.error e, l) => Watch.stop (lexicalFailure c.current e l)

def expect (c : Cursor) (want : Lexeme) (h : want.kind ≠ .eof) : m (Smaller c) :=
  if hc : c.current.toLexeme = want then c.take (by rw [hc]; exact h)
  else Watch.stop (c.unexpected want)

def skipBlank (c : Cursor) : m { d : Cursor // d.size ≤ c.size } :=
  if h : c.current.isBlank then do
    let ⟨d, hd⟩ ← c.take (by
      rintro hk
      simp [Lexeme.isBlank, hk] at h)
    let ⟨e, he⟩ ← d.skipBlank
    return ⟨e, by omega⟩
  else return ⟨c, Nat.le_refl _⟩
termination_by c.size

end Cursor

end Reckon
