import Reckon.Text.Quoted

namespace Reckon

/-- A place in a source: line and column from one, and the code points before it. -/
structure Position where
  line : Int
  column : Int
  offset : Int
  deriving DecidableEq, Repr, Inhabited

namespace Position

def start : Position := ⟨1, 1, 0⟩

def zero : Position := ⟨0, 0, 0⟩

def next (p : Position) (c : Char) : Position :=
  if c = '\n' then ⟨p.line + 1, 1, p.offset + 1⟩ else ⟨p.line, p.column + 1, p.offset + 1⟩

def advance (p : Position) (cs : List Char) : Position := cs.foldl next p

def text (p : Position) : String := s!"{p.line}:{p.column}"

end Position

inductive TokenKind where
  | eof
  | eol
  | punctuation
  | string
  | operator
  | identifier
  | numeric
  | keyword
  | comment
  | other (code : Int)
  deriving DecidableEq, Repr, Inhabited

def TokenKind.name : TokenKind → String
  | .eof => "EOF"
  | .eol => "EOL"
  | .punctuation => "PUNCTUATION"
  | .string => "STRING"
  | .operator => "OPERATOR"
  | .identifier => "IDENTIFIER"
  | .numeric => "NUMERIC"
  | .keyword => "KEYWORD"
  | .comment => "COMMENT"
  | .other code => s!"TokenKind({code})"

inductive PunctKind where
  | none
  | opening
  | closing
  | separator
  | other (code : Int)
  deriving DecidableEq, Repr, Inhabited

def PunctKind.name : PunctKind → String
  | .opening => "Open"
  | .closing => "Close"
  | .separator => "Separator"
  | .none | .other _ => "None"

inductive NumericHint where
  | none
  | integer
  | floatingPoint
  | other (code : Int)
  deriving DecidableEq, Repr, Inhabited

def NumericHint.name : NumericHint → String
  | .integer => "Integer"
  | .floatingPoint => "FloatingPoint"
  | .none | .other _ => "None"

/-- What a token says, apart from where it stands. `raw` is the source text, for a string its
contents and for a comment what follows the mark; `depth` is the nesting of a bracket. -/
structure Lexeme where
  kind : TokenKind := .eof
  raw : Text := []
  punct : PunctKind := .none
  depth : Int := 0
  hint : NumericHint := .none
  deriving DecidableEq, Repr, Inhabited

namespace Lexeme

def eof : Lexeme := {}

def opening (c : Char) (depth : Int) : Lexeme :=
  { kind := .punctuation, raw := .ofChars [c], punct := .opening, depth }

def closing (c : Char) (depth : Int) : Lexeme :=
  { kind := .punctuation, raw := .ofChars [c], punct := .closing, depth }

def separator (c : Char) : Lexeme :=
  { kind := .punctuation, raw := .ofChars [c], punct := .separator }

def plain (kind : TokenKind) (raw : List Char) : Lexeme := { kind, raw := .ofChars raw }

def numeral (raw : List Char) (point : Bool) : Lexeme :=
  { kind := .numeric, raw := .ofChars raw, hint := if point then .floatingPoint else .integer }

def isOpening (l : Lexeme) (c : Char) : Bool :=
  l.kind = .punctuation ∧ l.punct = .opening ∧ l.raw = .ofChars [c]

def isClosing (l : Lexeme) : Bool := l.kind = .punctuation ∧ l.punct = .closing

def isOperator (l : Lexeme) (symbol : String) : Bool :=
  l.kind = .operator ∧ l.raw = .ofString symbol

def isBlank (l : Lexeme) : Bool := l.kind = .eol ∨ l.kind = .comment

def describe (l : Lexeme) : String :=
  match l.kind with
  | .eof => "end of input"
  | .eol => "end of line"
  | .punctuation =>
    match l.punct with
    | .separator => l.raw.quote
    | punct => l.raw.quote ++ " (" ++ punct.name ++ " " ++ toString l.depth ++ ")"
  | .numeric => "number " ++ l.raw.toString ++ " (" ++ l.hint.name ++ ")"
  | .comment => "comment"
  | kind => kind.name ++ " " ++ l.raw.quote

end Lexeme

/-- A lexeme at a position. Two tokens with the same lexeme are the same to the grammar, wherever
they stand. -/
structure Token extends Lexeme where
  pos : Position := .zero
  deriving DecidableEq, Repr, Inhabited

namespace Token

def zero : Token := {}

def line (t : Token) : String :=
  padRight 12 t.kind.name ++ " " ++ padRight 14 t.raw.quote ++ "  " ++ t.pos.text

end Token

end Reckon
