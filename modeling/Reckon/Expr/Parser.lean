import Reckon.Expr
import Reckon.Expr.Cursor

/-!
Parsing, by one token of lookahead.

    program    = { blank } { logical ( EOL | COMMENT | EOF ) { blank } }
    logical    = expression { ("&&" | "||") expression }
    expression = term { ("+" | "-") term }
    term       = factor { ("*" | "/" | "%" | "==" | "<" | ">" | "<=" | ">=") factor }
    factor     = NUMERIC | STRING | "true" | "false" | ("+" | "-") factor | group
               | IDENTIFIER [ "=" logical | group | index ]
               | ("print" | "if") group [ block ]
               | blank logical

A group, an index and a block are an expression in round, square and curly brackets, with blanks on
both sides of it.
-/

namespace Reckon

/-- The next tighter tier; beyond the tightest stand the factors. -/
def Tier.tighter : Tier → Option Tier
  | .logical => some .expression
  | .expression => some .term
  | .term => none

namespace Cursor

structure Parsed (c : Cursor) where
  expr : Expr
  after : Cursor
  size_lt : after.size < c.size

/-- An expression that was read on, perhaps without taking a token. -/
structure Reached (c : Cursor) where
  expr : Expr
  after : Cursor
  size_le : after.size ≤ c.size

def endsOperand (l : Lexeme) : Bool :=
  l.kind = .operator ∨ l.kind = .eol ∨ l.kind = .eof ∨ l.kind = .comment ∨ l.isClosing

theorem kind_of_isOpening {l : Lexeme} {b : Char} (h : l.isOpening b) : l.kind = .punctuation := by
  simp only [Lexeme.isOpening, decide_eq_true_eq] at h
  exact h.1

theorem kind_of_isOperator {l : Lexeme} {s : String} (h : l.isOperator s) : l.kind = .operator := by
  simp only [Lexeme.isOperator, decide_eq_true_eq] at h
  exact h.1

theorem size_lt_of_delimited {c d e f g i : Cursor} (hd : d.size < c.size) (he : e.size ≤ d.size)
    (hf : f.size < e.size) (hg : g.size ≤ f.size) (hi : i.size < g.size) : i.size < c.size := by
  omega

def rank : Option Tier → Nat
  | some .logical => 5
  | some .expression => 4
  | some .term => 3
  | none => 2

variable {m : Type → Type} [Monad m] [Watch m]

mutual

/-- Reads operands of a tier and the operators between them; beyond the tightest tier, a factor. -/
def parseTier (tier : Option Tier) (c : Cursor) : m (Parsed c) := do
  Watch.note .call
  match tier with
  | none => parseFactor c
  | some t =>
    let ⟨left, d, hd⟩ ← parseTier t.tighter c
    let ⟨e, f, hf⟩ ← parseChain t left d
    return ⟨e, f, by omega⟩
termination_by (c.size, rank tier)
decreasing_by
  · exact Prod.Lex.right _ (by decide)
  · exact Prod.Lex.right _ (by cases t <;> decide)
  · exact Prod.Lex.left _ _ hd

/-- Reads the operators of a tier that follow an operand, from left to right. -/
def parseChain (t : Tier) (left : Expr) (c : Cursor) : m (Reached c) := do
  Watch.note .call
  if hk : c.current.kind = .operator then
    match OpKind.ofBinary? c.current.raw.toString with
    | none =>
      if t = .logical then Watch.stop (c.fail .operator "expression" "a binary operator")
      else return ⟨left, c, Nat.le_refl _⟩
    | some kind =>
      if kind.tier? = some t then
        let ⟨d, hd⟩ ← c.take (by rw [hk]; nofun)
        let ⟨right, e, he⟩ ← parseTier t.tighter d
        let ⟨all, f, hf⟩ ← parseChain t (.binary kind left right) e
        return ⟨all, f, by omega⟩
      else return ⟨left, c, Nat.le_refl _⟩
  else return ⟨left, c, Nat.le_refl _⟩
termination_by (c.size, 0)
decreasing_by
  · exact Prod.Lex.left _ _ hd
  · exact Prod.Lex.left _ _ (by omega)

def parseFactor (c : Cursor) : m (Parsed c) := do
  Watch.note .call
  match hk : c.current.kind with
  | .numeric =>
    match c.current.literal with
    | .error e => Watch.stop (c.malformed e)
    | .ok l =>
      let ⟨d, hd⟩ ← c.take (by rw [hk]; nofun)
      return ⟨.literal l, d, hd⟩
  | .string =>
    let ⟨d, hd⟩ ← c.take (by rw [hk]; nofun)
    return ⟨.literal (.string c.current.raw), d, hd⟩
  | .operator =>
    match OpKind.ofSign? c.current.raw.toString with
    | none => Watch.stop (c.fail .factor "factor" "an operand")
    | some kind =>
      let ⟨d, hd⟩ ← c.take (by rw [hk]; nofun)
      let ⟨operand, e, he⟩ ← parseFactor d
      return ⟨.unary kind operand, e, by omega⟩
  | .punctuation =>
    if c.current.isOpening '(' then parseDelimited .round "group" c (by rw [hk]; nofun)
    else Watch.stop (c.fail .factor "factor" "an operand")
  | .identifier => parseName c (by rw [hk]; nofun)
  | .keyword => parseKeyword c (by rw [hk]; nofun)
  | .comment | .eol =>
    let ⟨d, hd⟩ ← c.take (by rw [hk]; nofun)
    let ⟨e, f, hf⟩ ← parseTier (some .logical) d
    return ⟨e, f, by omega⟩
  | .eof | .other _ => Watch.stop (c.fail .factor "factor" "an operand")
termination_by (c.size, 1)

/-- Reads an expression between the current bracket and the one that closes it. -/
def parseDelimited (bracket : Bracket) (production : String) (c : Cursor)
    (h : c.current.kind ≠ .eof) : m (Parsed c) := do
  Watch.note .call
  let want := Lexeme.closing bracket.closer c.current.depth
  let ⟨d, hd⟩ ← c.take h
  let ⟨e, he⟩ ← d.skipBlank
  let ⟨expr, f, hf⟩ ← parseTier (some .logical) e
  let ⟨g, hg⟩ ← f.skipBlank
  Watch.note (.check bracket c.current g.current)
  if g.current.isClosing ∧ g.current.toLexeme ≠ want then
    Watch.stop (g.fail .bracketMismatch production want.describe)
  else
    let ⟨i, hi⟩ ← g.expect want (by show TokenKind.punctuation ≠ .eof; nofun)
    return ⟨expr, i, size_lt_of_delimited hd he hf hg hi⟩
termination_by (c.size, 0)

def parseName (c : Cursor) (h : c.current.kind ≠ .eof) : m (Parsed c) := do
  Watch.note .call
  let name := c.current.raw.toString
  let ⟨d, hd⟩ ← c.take h
  if ho : d.current.isOperator "=" then
    let ⟨e, he⟩ ← d.take (by rw [kind_of_isOperator ho]; nofun)
    let ⟨value, f, hf⟩ ← parseTier (some .logical) e
    return ⟨.binary .assignment (.symbol name) value, f, by omega⟩
  else if ho : d.current.isOpening '(' then
    let ⟨arg, e, he⟩ ← parseDelimited .round "call" d (by rw [kind_of_isOpening ho]; nofun)
    return ⟨.call name arg, e, by omega⟩
  else if ho : d.current.isOpening '[' then
    let ⟨index, e, he⟩ ← parseDelimited .square "index" d (by rw [kind_of_isOpening ho]; nofun)
    return ⟨.binary .index (.symbol name) index, e, by omega⟩
  else if endsOperand d.current.toLexeme then return ⟨.symbol name, d, hd⟩
  else Watch.stop (d.fail .identifier "identifier" "'=', an operator or end of line")
termination_by (c.size, 0)

def parseKeyword (c : Cursor) (h : c.current.kind ≠ .eof) : m (Parsed c) := do
  Watch.note .call
  let word := c.current.raw.toString
  if word = "true" ∨ word = "false" then
    let ⟨d, hd⟩ ← c.take h
    return ⟨.literal (.boolean (word = "true")), d, hd⟩
  else if word = "print" ∨ word = "if" then
    let ⟨d, hd⟩ ← c.take h
    if ho : d.current.isOpening '(' then
      let ⟨arg, e, he⟩ ←
        parseDelimited .round "keyword call" d (by rw [kind_of_isOpening ho]; nofun)
      if endsOperand e.current.toLexeme then return ⟨.call word arg, e, by omega⟩
      else if hb : e.current.isOpening Bracket.curly.opener then
        let ⟨body, f, hf⟩ ← parseDelimited .curly "block" e (by rw [kind_of_isOpening hb]; nofun)
        return ⟨.define word arg body, f, by omega⟩
      else Watch.stop (e.fail .keywordCall "keyword call" "an operator, end of line or '\x7b'")
    else Watch.stop (d.fail .keywordCall "keyword call" ("'(' after " ++ word))
  else Watch.stop (c.fail .unimplementedKeyword "keyword" "")
termination_by (c.size, 0)

end

end Cursor

end Reckon
