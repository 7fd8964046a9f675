import Mathlib
import Reckon.Proofs.Composition
import Reckon.Proofs.Lookahead
import Reckon.Proofs.PullParsing
import Reckon.Proofs.Tiling

namespace Reckon

namespace Position

/-- A place of a source. Its line and its column are one more than the line breaks before it and
than the characters between the last of these and it. -/
structure Marks (source : List Char) (p : Position) : Prop where
  nonneg : 0 ≤ p.offset
  offset_le : p.offset ≤ source.length
  line : p.line = 1 + (source.take p.offset.toNat).count '\n'
  column : p.column = 1 + ((source.take p.offset.toNat).rtakeWhile (· ≠ '\n')).length

theorem column_advance_start (cs : List Char) :
    (start.advance cs).column = 1 + (cs.rtakeWhile (· ≠ '\n')).length := by
  induction cs using List.reverseRecOn with
  | nil => rfl
  | append_singleton cs c ih =>
    rw [advance_append, List.rtakeWhile_concat]
    change ((start.advance cs).next c).column = _
    rw [next]
    by_cases hc : c = '\n'
    · simp [hc]
    · simp only [hc, if_false, ih, ne_eq, not_false_eq_true, decide_true, if_true,
        List.length_append, List.length_singleton]
      omega

theorem marks_advance (cs rest : List Char) : (start.advance cs).Marks (cs ++ rest) := by
  have hoffset : (start.advance cs).offset = cs.length := by
    rw [offset_advance]
    exact Int.zero_add _
  have htake : (cs ++ rest).take (start.advance cs).offset.toNat = cs := by
    rw [hoffset, Int.toNat_natCast, List.take_left]
  constructor
  case nonneg => omega
  case offset_le =>
    rw [hoffset, List.length_append]
    omega
  case line =>
    rw [htake, line_advance]
    rfl
  case column =>
    rw [htake]
    exact column_advance_start cs

end Position

namespace Scanner

/-- What a scanner has taken and what it has left make up a source, and it stands between them. -/
def StandsIn (source : List Char) (s : Scanner) : Prop :=
  ∃ cs, source = cs ++ s.rest ∧ s.pos = Position.start.advance cs

theorem standsIn_start (source : List Char) : StandsIn source { rest := source } :=
  ⟨[], rfl, rfl⟩

namespace StandsIn

variable {source : List Char} {s : Scanner}

theorem marks (h : StandsIn source s) : s.pos.Marks source := by
  obtain ⟨cs, rfl, hpos⟩ := h
  rw [hpos]
  exact Position.marks_advance cs s.rest

theorem advance (h : StandsIn source s) {taken rest : List Char} (hrest : s.rest = taken ++ rest)
    (n : Nesting) : StandsIn source ⟨rest, s.pos.advance taken, n⟩ := by
  obtain ⟨cs, rfl, hpos⟩ := h
  refine ⟨cs ++ taken, ?_, ?_⟩
  · rw [hrest, List.append_assoc]
  · rw [hpos, Position.advance_append]

theorem next (h : StandsIn source s) :
    (Lexed.pos s.next.1).Marks source ∧ StandsIn source s.next.2 := by
  cases hrest : s.rest.dropWhile isGap with
  | nil =>
    rw [next_of_end hrest]
    have hafter := h.advance (List.append_nil s.rest).symm s.nesting
    exact ⟨hafter.marks, hafter⟩
  | cons c cs =>
    obtain ⟨-, hpos, hafter⟩ := next_of_start hrest
    have hgap : s.rest = s.rest.takeWhile isGap ++ c :: cs := by
      rw [← hrest, List.takeWhile_append_dropWhile]
    have hstart := h.advance hgap s.nesting
    have hsplit := readLexeme_taken_append_rest s.nesting c cs
    rw [hpos, hafter]
    exact ⟨hstart.marks, hstart.advance hsplit.symm _⟩

theorem run (h : StandsIn source s) :
    (∀ t ∈ s.run.1, t.pos.Marks source) ∧ ∀ e ∈ s.run.2, e.pos.Marks source := by
  induction s using Scanner.run.induct with
  | case1 s e s' hn =>
    have hmarks := h.next.1
    rw [hn] at hmarks
    rw [run_error hn]
    refine ⟨List.forall_mem_nil _, fun e' he => ?_⟩
    cases he
    exact hmarks
  | case2 s t s' hn ht =>
    have hmarks := h.next.1
    rw [hn] at hmarks
    rw [run_eof hn ht]
    exact ⟨List.forall_mem_singleton.2 hmarks, fun e he => absurd he (Option.not_mem_none e)⟩
  | case3 s t s' hn ht _ us e hrun ih =>
    obtain ⟨hmarks, hafter⟩ := h.next
    rw [hn] at hmarks hafter
    obtain ⟨htokens, herror⟩ := ih hafter
    rw [run_cons hn ht rfl]
    exact ⟨List.forall_mem_cons.2 ⟨hmarks, htokens⟩, herror⟩

end StandsIn

end Scanner

theorem Program.marks_of_parse {source : List Char} {error : ParseError}
    (h : Program.parse source = .error error) : error.pos.Marks source := by
  obtain ⟨htokens, herror⟩ := (Scanner.standsIn_start source).run
  cases agrees_of_parse h with
  | @lexical ts e hlex _ _ hpos =>
    rw [hpos]
    apply herror
    change e ∈ (lex source).2
    rw [hlex]
    rfl
  | grammar _ hpos hmem =>
    rw [hpos]
    exact htokens _ hmem

/-- Whatever calls are made, also after errors, every place that the lexer reports, with a token,
with an error or as its own, is consistent with its offset in the source; and so is the place of
every error of the parser. -/
theorem Lexer.positions_consistent (source : List Char) :
    (∀ calls : List Call,
      (∀ a ∈ (ofSource source).answers calls, (Lexed.pos a.2).Marks source) ∧
        ((ofSource source).after calls).pos.Marks source) ∧
    ∀ error, Program.parse source = .error error → error.pos.Marks source := by
  refine ⟨fun calls => ?_, fun error h => Program.marks_of_parse h⟩
  have hstart : (ofSource source).Keeps (Scanner.StandsIn source)
      (fun r => (Lexed.pos r).Marks source) :=
    ⟨Scanner.standsIn_start source, fun _ hr => absurd hr (Option.not_mem_none _)⟩
  obtain ⟨hanswers, hafter⟩ := hstart.calls (fun _ h => h.next) calls
  exact ⟨hanswers, hafter.scanner.marks⟩

/-- A bracket behind a string of two lines: the lexer returns it, and the parser complains of it, at
the same place. -/
theorem Lexer.positions_consistent_behind_string :
    let source := "\"p\nq\" (a)".toList
    let bracket : Token :=
      { kind := .punctuation, raw := [.char '('], punct := .opening, pos := ⟨2, 4, 6⟩ }
    let error : ParseError :=
      { fault := .statement, production := "statement", expected := "end of line",
        found := bracket, pos := ⟨2, 4, 6⟩ }
    (Call.peek, .ok bracket) ∈ (ofSource source).answers [.peek, .next, .peek] ∧
      Program.parse source = .error error ∧ bracket.pos.Marks source ∧
      error.pos.Marks source := by
  intro source bracket error
  have hanswer : (Call.peek, .ok bracket) ∈ (ofSource source).answers [.peek, .next, .peek] := by
    decide +kernel
  have hparse : Program.parse source = .error error := by
    unfold source error bracket
    cbv
  obtain ⟨hcalls, herrors⟩ := positions_consistent source
  exact ⟨hanswer, hparse, (hcalls _).1 _ hanswer, herrors error hparse⟩

end Reckon
