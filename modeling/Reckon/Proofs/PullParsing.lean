import Mathlib
import Reckon.Proofs.Simulation

namespace Reckon

namespace Cursor

/-- The tokens taken before a cursor, its own and those to come are the tokens of a source. -/
structure Along (source : List Char) (c : Cursor) : Prop where
  peeked : c.lexer.peeked = none
  tokens : ∃ (us : List Token) (s : Scanner), lex source = (us ++ s.run.1, s.run.2) ∧
    s.next = (.ok c.current, c.lexer.scanner)

/-- How a parse error stands to the tokens of a source. -/
inductive Agrees (source : List Char) (error : ParseError) : Prop where
  | lexical {ts : List Token} {e : LexError} : lex source = (ts, some e) →
    error.fault = .lexical → error.cause = some (.lexical e) → error.pos = e.pos →
    error.found = ts.getLastD .zero → Agrees source error
  | grammar : error.fault ≠ .lexical → error.pos = error.found.pos →
    error.found ∈ (lex source).1 → Agrees source error

variable {source : List Char} {c d : Cursor}

theorem First.along (h : First source c) : c.Along source :=
  ⟨h.1, [], _, rfl, h.2⟩

namespace Along

theorem step (h : c.Along source) (hs : c.Step d) : d.Along source := by
  obtain ⟨hpeek, us, s, hlex, hnext⟩ := h
  obtain ⟨hnext', hpeek'⟩ := hs.scanner hpeek
  refine ⟨hpeek', us ++ [c.current], c.lexer.scanner, ?_, hnext'⟩
  rw [hlex, Scanner.run_cons hnext hs.1 rfl]
  simp

theorem mem (h : c.Along source) : c.current ∈ (lex source).1 := by
  obtain ⟨-, us, s, hlex, hnext⟩ := h
  rw [hlex]
  apply List.mem_append_right
  by_cases hk : c.current.kind = .eof
  · rw [Scanner.run_eof hnext hk]
    exact List.mem_singleton.2 rfl
  · rw [Scanner.run_cons hnext hk rfl]
    exact List.mem_cons_self

theorem lex_of_error (h : c.Along source) (hc : c.current.kind ≠ .eof) {e : LexError} {l : Lexer}
    (he : c.lexer.next = (.error e, l)) : ∃ us, lex source = (us ++ [c.current], some e) := by
  obtain ⟨hpeek, us, s, hlex, hnext⟩ := h
  refine ⟨us, ?_⟩
  rw [hlex, Scanner.run_cons hnext hc rfl, Scanner.run_error (Lexer.scanner_next hpeek he).1]

theorem next (h : c.Along source) (hc : c.current.kind ≠ .eof) :
    (∃ d, c.Step d ∧ d.Along source) ∨
    ∃ e l, c.lexer.next = (.error e, l) ∧
      Agrees source (lexicalFailure c.current e l).error := by
  cases hn : c.lexer.next with
  | mk r l =>
    cases r with
    | ok t =>
      have hs : c.Step ⟨t, l⟩ := ⟨hc, hn⟩
      exact .inl ⟨_, hs, h.step hs⟩
    | error e =>
      obtain ⟨us, hlex⟩ := h.lex_of_error hc hn
      exact .inr ⟨e, l, rfl, .lexical hlex rfl rfl rfl (by simp [lexicalFailure])⟩

/-- A cursor beside itself: what is kept from step to step is that it goes along the source. -/
theorem mirrors (source : List Char) :
    Mirrors (fun c d => c = d ∧ c.Along source) (fun f _ => Agrees source f.error) where
  lexeme h := h.1 ▸ rfl
  next := by
    rintro c _ ⟨rfl, h⟩ hc
    rcases h.next hc with ⟨d, hs, hd⟩ | ⟨e, l, hn, hagrees⟩
    · exact .inl ⟨d, d, hs, hs, rfl, hd⟩
    · exact .inr ⟨e, l, e, l, hn, hn, hagrees⟩
  fault := by
    rintro c _ f g ⟨rfl, h⟩ htwins
    have hfound : f.error.found = c.current := htwins.left.found
    refine .grammar htwins.grammar ?_ ?_
    · rw [htwins.left.pos, hfound]
    · exact hfound ▸ h.mem

end Along

end Cursor

open Cursor (Agrees)

theorem Program.agrees_of_parse {source : List Char} {error : ParseError}
    (h : Program.parse source = .error error) : Agrees source error := by
  cases hs : (Lexer.ofSource source).parseStatements with
  | ok r => cases (parse_of_ok hs).symm.trans h
  | error failure =>
    cases (parse_of_error hs).symm.trans h
    rcases hn : (Lexer.ofSource source).next with ⟨e | t, l⟩
    · have hlex : lex source = ([], some e) := Scanner.run_error (Lexer.scanner_next rfl hn).1
      rw [Lexer.parseStatements, Cursor.ofLexer_of_error hn] at hs
      cases hs
      exact .lexical hlex rfl rfl rfl rfl
    · have hc : Cursor.ofLexer (.ofSource source) = .ok ⟨t, l⟩ := Cursor.ofLexer_of_ok hn
      rw [Lexer.parseStatements, hc] at hs
      have halong := (Cursor.ofLexer_eq_ok.1 hc).along
      have halike := (Cursor.Along.mirrors source).parseStatements ⟨rfl, halong⟩
      obtain ⟨_, -, hagrees⟩ := halike.exists_error hs
      exact hagrees

/-- A parse fails with a lexical error only if lexing does, and then with the same one, behind the
last token; every other error stands at a token. If lexing fails, the parse does not succeed. -/
theorem Program.parse_agrees_lex {source : List Char} {ts : List Token} {e : Option LexError}
    (h : lex source = (ts, e)) :
    (e = none → ∀ error, Program.parse source = .error error → error.fault ≠ .lexical) ∧
    (∀ fault, e = some fault → ∃ error, Program.parse source = .error error ∧
      (error.fault = .lexical ∧ error.cause = some (.lexical fault) ∧ error.pos = fault.pos ∧
          error.found = ts.getLastD .zero ∨
        error.fault ≠ .lexical ∧ error.found ∈ ts)) ∧
    ∀ error, Program.parse source = .error error → error.fault ≠ .lexical →
      error.pos = error.found.pos ∧ error.found ∈ ts := by
  refine ⟨?_, ?_, ?_⟩
  · rintro rfl error herror hfault
    cases agrees_of_parse herror with
    | lexical hlex => cases h.symm.trans hlex
    | grammar hne => exact hne hfault
  · rintro fault rfl
    cases hparse : Program.parse source with
    | ok p =>
      obtain ⟨ls, ⟨us, hlex, -⟩, -⟩ := Grammar.parsesAll_of_parse hparse
      cases h.symm.trans hlex
    | error error =>
      refine ⟨error, rfl, ?_⟩
      cases agrees_of_parse hparse with
      | lexical hlex hfault hcause hpos hfound =>
        cases h.symm.trans hlex
        exact .inl ⟨hfault, hcause, hpos, hfound⟩
      | grammar hfault _ hmem =>
        rw [h] at hmem
        exact .inr ⟨hfault, hmem⟩
  · intro error herror hne
    cases agrees_of_parse herror with
    | lexical _ hfault => exact absurd hfault hne
    | grammar _ hpos hmem =>
      rw [h] at hmem
      exact ⟨hpos, hmem⟩

/-- A spoiled numeral is met where an operand should stand, and an operand is missing. -/
theorem Program.parse_agrees_lex_operand :
    (∃ error, Program.parse "a + 1x".toList = .error error ∧
      (error.fault = .lexical ∧
          error.cause = some (.lexical ⟨.invalidNumber (.ofChars ['1', 'x']), ⟨1, 5, 4⟩⟩) ∧
          error.pos = ⟨1, 5, 4⟩ ∧
          error.found = { Lexeme.plain .operator ['+'] with pos := ⟨1, 3, 2⟩ } ∨
        error.fault ≠ .lexical ∧ error.found ∈ (lex "a + 1x".toList).1)) ∧
    ∃ error, Program.parse "(a + )".toList = .error error ∧ error.fault ≠ .lexical ∧
      error.pos = error.found.pos ∧ error.found ∈ (lex "(a + )".toList).1 := by
  have hstop : lex "a + 1x".toList = ((lex "a + 1x".toList).1,
      some ⟨.invalidNumber (.ofChars ['1', 'x']), ⟨1, 5, 4⟩⟩) :=
    Prod.ext rfl (by decide +kernel)
  have hlast : (lex "a + 1x".toList).1.getLastD .zero =
      { Lexeme.plain .operator ['+'] with pos := ⟨1, 3, 2⟩ } := by decide +kernel
  have hread : lex "(a + )".toList = ((lex "(a + )".toList).1, none) :=
    Prod.ext rfl (by decide +kernel)
  have hparse : Program.parse "(a + )".toList = .error
      { fault := .factor, production := "factor", expected := "an operand",
        found := { Lexeme.closing ')' 0 with pos := ⟨1, 6, 5⟩ }, pos := ⟨1, 6, 5⟩ } := by
    cbv
  have hne := (parse_agrees_lex hread).1 rfl _ hparse
  refine ⟨?_, _, hparse, hne, (parse_agrees_lex hread).2.2 _ hparse hne⟩
  rw [← hlast]
  exact (parse_agrees_lex hstop).2.1 _ rfl

end Reckon
