import Reckon.Expr.Parser

namespace Reckon

structure Program where
  exprs : List Expr
  deriving Repr, Inhabited

def Program.text (p : Program) : String :=
  p.exprs.foldl (fun lines e => lines ++ e.text ++ "\n") ""

def endsStatement (l : Lexeme) : Bool := l.kind = .eol ∨ l.kind = .comment ∨ l.kind = .eof

section

variable {m : Type → Type} [Monad m] [Watch m]

def Cursor.parseStatements (c : Cursor) : m (List Expr × Lexer) := do
  Watch.note .call
  let ⟨d, hd⟩ ← c.skipBlank
  if d.current.kind = .eof then return ([], d.lexer)
  else
    let ⟨e, f, hf⟩ ← parseTier (some .logical) d
    have : f.size < c.size := Nat.lt_of_lt_of_le hf hd
    if endsStatement f.current.toLexeme then
      let (es, l) ← f.parseStatements
      return (e :: es, l)
    else Watch.stop (f.fail .statement "statement" "end of line")
termination_by c.size

def Lexer.parseStatements (l : Lexer) : m (List Expr × Lexer) := do
  let c ← Cursor.ofLexer l
  c.parseStatements

end

/-- Parses what is left of a source, and leaves the lexer behind the last token that was read. -/
def Lexer.parse (l : Lexer) : Except ParseError Program × Lexer :=
  match (l.parseStatements : Except ParseFailure (List Expr × Lexer)) with
  | .ok (exprs, l') => (.ok ⟨exprs⟩, l')
  | .error failure => (.error failure.error, failure.lexer)

def Program.parse (source : List Char) : Except ParseError Program :=
  (Lexer.ofSource source).parse.1

end Reckon
