import Reckon.Proofs.Trail

namespace Reckon

open Event (calls reads)

/-- All that a scanner yields: the tokens to the end of the source, or to the first error and this
error. -/
def Scanner.yields (s : Scanner) : List Lexed := s.run.1.map .ok ++ s.run.2.toList.map .error

namespace Scanner

variable {s s' : Scanner} {t : Token}

theorem yields_eof (h : s.next = (.ok t, s')) (ht : t.kind = .eof) : s.yields = [.ok t] := by
  rw [yields, run_eof h ht]
  rfl

theorem yields_cons (h : s.next = (.ok t, s')) (ht : t.kind ≠ .eof) :
    s.yields = .ok t :: s'.yields := by
  rw [yields, run_cons h ht rfl]
  rfl

theorem length_yields (s : Scanner) :
    s.yields.length = s.run.1.length + s.run.2.toList.length := by
  simp [yields]

theorem getLast?_run (s : Scanner) (h : s.run.2 = none) :
    ∃ t, s.run.1.getLast? = some t ∧ t.kind = .eof := by
  induction s using run.induct with
  | case1 s e s' hn =>
    rw [run_error hn] at h
    cases h
  | case2 s t s' hn ht =>
    rw [run_eof hn ht]
    exact ⟨t, rfl, ht⟩
  | case3 s t s' hn ht _ us e hrun ih =>
    rw [run_cons hn ht rfl] at h ⊢
    obtain ⟨u, hu, hk⟩ := ih h
    refine ⟨u, ?_, hk⟩
    rw [List.getLast?_cons, hu]
    rfl

theorem yields_error {e : LexError} (h : s.next = (.error e, s')) : s.yields = [.error e] := by
  rw [yields, run_error h]
  rfl

end Scanner

def Cursor.left : Except ParseFailure Cursor → Lexer
  | .ok d => d.lexer
  | .error failure => failure.lexer

theorem Cursor.Answers.left_eq {r : Except ParseFailure Cursor}
    {answer : Except ParseError Program × Lexer} (h : Answers r answer) : answer.2 = left r := by
  cases h <;> rfl

namespace Cursor.Trail

variable {c d : Cursor} {log : List Event} {r : Except ParseFailure Cursor} {s : Scanner}

theorem reads_prefix (h : Trail c log r) (hp : c.lexer.peeked = none)
    (hs : s.next = (.ok c.current, c.lexer.scanner)) :
    .ok c.current :: reads log <+: s.yields := by
  have hstart {c : Cursor} {s : Scanner} (hs : s.next = (.ok c.current, c.lexer.scanner)) :
      [.ok c.current] <+: s.yields := by
    by_cases hk : c.current.kind = .eof
    · exact Scanner.yields_eof hs hk ▸ List.prefix_refl _
    · rw [Scanner.yields_cons hs hk]
      exact List.cons_prefix_cons.2 ⟨rfl, List.nil_prefix⟩
  induction h generalizing s with
  | done => exact hstart hs
  | refused => exact hstart hs
  | call _ ih => exact ih hp hs
  | read hclear hstep _ ih =>
    obtain ⟨hn, hp'⟩ := hstep.scanner hp
    rw [hclear.reads_append, Scanner.yields_cons hs hstep.1]
    exact List.cons_prefix_cons.2 ⟨rfl, ih hp' hn⟩
  | broken hclear hk hn =>
    have hlast := Scanner.yields_error (Lexer.scanner_next hp hn).1
    rw [hclear.reads_append, Scanner.yields_cons hs hk]
    exact List.cons_prefix_cons.2 ⟨rfl, hlast ▸ List.prefix_refl _⟩
  | mismatched => exact hstart hs
  | unclosed => exact hstart hs

theorem reads_eq (h : Trail c log (.ok d)) (hp : c.lexer.peeked = none)
    (hs : s.next = (.ok c.current, c.lexer.scanner)) (hd : d.current.kind = .eof) :
    .ok c.current :: reads log = s.yields ∧ s.run.2 = none := by
  generalize hr : Except.ok d = r at h
  induction h generalizing s with
  | done =>
    cases hr
    rw [Scanner.yields_eof hs hd, Scanner.run_eof hs hd]
    exact ⟨rfl, rfl⟩
  | refused => cases hr
  | call _ ih => exact ih hp hs hr
  | read hclear hstep _ ih =>
    obtain ⟨hn, hp'⟩ := hstep.scanner hp
    obtain ⟨hreads, herror⟩ := ih hp' hn hr
    rw [hclear.reads_append, Scanner.yields_cons hs hstep.1, Scanner.run_cons hs hstep.1 rfl]
    exact ⟨congrArg _ hreads, herror⟩
  | broken => cases hr
  | mismatched => cases hr
  | unclosed => cases hr

theorem results_eq (h : Trail c log r) : c.lexer.results (reads log).length = reads log := by
  induction h with
  | done => rfl
  | refused => rfl
  | call _ ih => exact ih
  | read hclear hstep _ ih =>
    rw [hclear.reads_append, Event.reads_read, List.length_cons, Lexer.results, hstep.2, ih]
  | broken hclear _ hn =>
    rw [hclear.reads_append, Event.reads_read, List.length_cons, Lexer.results, hn]
    rfl
  | mismatched => rfl
  | unclosed => rfl

theorem resume_eq (h : Trail c log r) : c.lexer.resume (reads log).length = left r := by
  induction h with
  | done => rfl
  | refused hl => exact hl.symm
  | call _ ih => exact ih
  | read hclear hstep _ ih =>
    rw [hclear.reads_append, Event.reads_read, List.length_cons, Lexer.resume, hstep.2, ih]
  | broken hclear _ hn =>
    rw [hclear.reads_append, Event.reads_read, List.length_cons, Lexer.resume, hn]
    rfl
  | mismatched => rfl
  | unclosed _ _ hl => exact hl.symm

end Cursor.Trail

/-- A parse asks the lexer for what `lex` returns, once for each token in order and at most once
more for an error, and it leaves the lexer behind what it has asked for. If it succeeds, then it has
asked for every token and the last one is the end of the source. The parsers enter each other at
most ten times for each token that is asked for. -/
theorem Program.parse_asks_once_for_each_token (source : List Char) :
    let run := (Lexer.ofSource source).traceParse
    let asked := reads run.log
    run.answer = (Lexer.ofSource source).parse ∧
      run.answer.2 = (Lexer.ofSource source).resume asked.length ∧
      asked = (Lexer.ofSource source).results asked.length ∧
      asked <+: (lex source).1.map .ok ++ (lex source).2.toList.map .error ∧
      asked.length ≤ (lex source).1.length + (lex source).2.toList.length ∧
      (∀ p, Program.parse source = .ok p → asked = (lex source).1.map .ok ∧ (lex source).2 = none ∧
        ∃ t, asked.getLast? = some (.ok t) ∧ t.kind = .eof) ∧
      calls run.log ≤ 10 * asked.length := by
  intro run asked
  have hanswer : run.answer = (Lexer.ofSource source).parse := Lexer.answer_traceParse _
  have hparse : run.answer.1 = Program.parse source := congrArg Prod.fst hanswer
  rcases Lexer.traceParse_cases source with
    ⟨e, l, hn, hlog, hfail⟩ | ⟨c, log, r, hfirst, hn, hlog, htrail, hend, hcalls⟩
  · have hasked : asked = [.error e] := congrArg reads hlog
    have hyields : asked = Scanner.yields { rest := source } := by
      obtain ⟨hnext, -⟩ := Lexer.scanner_next rfl hn
      rw [hasked, Scanner.yields_error (s := { rest := source }) hnext]
    have hcost : calls run.log = 0 := congrArg calls hlog
    have hlen := congrArg List.length hyields
    rw [Scanner.length_yields] at hlen
    refine ⟨hanswer, ?_, ?_, hyields ▸ List.prefix_refl _, hlen.le, ?_, by omega⟩
    · rw [hfail, hasked, List.length_singleton, Lexer.resume, hn]
      rfl
    · rw [hasked, List.length_singleton, Lexer.results, hn]
      rfl
    · intro p hp
      rw [← hparse, hfail] at hp
      cases hp
  · have hasked : asked = .ok c.current :: reads log := congrArg reads hlog
    have hyields : asked <+: Scanner.yields { rest := source } :=
      hasked ▸ htrail.reads_prefix hfirst.1 hfirst.2
    have hcost : calls run.log = calls log := by rw [hlog, Event.calls_read]
    have hcount : asked.length = (reads log).length + 1 := congrArg List.length hasked
    have hlen := hyields.length_le
    rw [Scanner.length_yields] at hlen
    refine ⟨hanswer, ?_, ?_, hyields, hlen, ?_, by omega⟩
    · rw [hcount, Lexer.resume, hn, htrail.resume_eq]
      exact hend.left_eq
    · rw [hcount, Lexer.results, hn, htrail.results_eq, hasked]
    · intro p hp
      rw [← hparse] at hp
      obtain ⟨d, rfl, hd⟩ := hend.of_ok hp
      obtain ⟨hall, herror⟩ := htrail.reads_eq hfirst.1 hfirst.2 hd
      obtain ⟨t, ht, hk⟩ := Scanner.getLast?_run _ herror
      have htokens : asked = (lex source).1.map .ok := by
        rw [hasked, hall, Scanner.yields, herror]
        exact List.append_nil _
      refine ⟨htokens, herror, t, ?_, hk⟩
      rw [htokens, List.getLast?_map]
      exact congrArg (Option.map _) ht

end Reckon
