import Reckon.Proofs.Trail

namespace Reckon

def Event.found? : Event → Option Token
  | .check _ _ found => some found
  | _ => none

/-- What follows a check on a log: the token behind the bracket if it has the right shape, and else
the end of the parse, with an error at what was found. -/
structure Checked (b : Bracket) (opener found : Token) (after : List Event)
    (answer : Except ParseError Program) : Prop where
  opens : opener.opens b
  passed : found.closes b →
    found.depth = opener.depth ∧ ∃ result rest, after = .read result :: rest
  stopped : ¬ found.closes b → after = [] ∧ ∃ e, answer = .error e ∧ e.found = found ∧
    e.fault = if found.isClosing then .bracketMismatch else .unexpectedToken

/-- The last check on a log reports a mismatch: the bracket has another shape than `e` expects. -/
def Mismatched (log : List Event) (e : ParseError) : Prop :=
  ∃ before b opener, log = before ++ [.check b opener e.found] ∧ e.found.isClosing ∧
    ¬ e.found.closes b ∧ e.expected = (Lexeme.closing b.closer opener.depth).describe

theorem Mismatched.append {log : List Event} {e : ParseError} (h : Mismatched log e)
    (events : List Event) : Mismatched (events ++ log) e := by
  obtain ⟨before, b, opener, rfl, hrest⟩ := h
  exact ⟨events ++ before, b, opener, (List.append_assoc ..).symm, hrest⟩

theorem isClosing_of_closes {b : Bracket} {l : Lexeme} (h : l.closes b) : l.isClosing :=
  (Bool.and_eq_true_iff.1 h).1

section

variable {before after log : List Event} {event : Event} {b : Bracket} {opener found : Token}

theorem check_cases (h : before ++ .check b opener found :: after = event :: log) :
    (event = .check b opener found ∧ log = after) ∨
      ∃ before, before ++ .check b opener found :: after = log := by
  cases before with
  | nil =>
    cases h
    exact .inl ⟨rfl, rfl⟩
  | cons first before => exact .inr ⟨before, (List.cons.inj h).2⟩

end

theorem Cursor.Cleared.checked {c : Cursor} {checks before after log : List Event} {b : Bracket}
    {opener found : Token} {result : Lexed} {answer : Except ParseError Program}
    (h : c.Cleared checks)
    (hlog : before ++ .check b opener found :: after = checks ++ .read result :: log) :
    Checked b opener found after answer ∨
      ∃ before, before ++ .check b opener found :: after = log := by
  cases h with
  | free =>
    obtain ⟨⟨⟩, -⟩ | hlater := check_cases hlog
    exact .inr hlater
  | closed ho hc hd =>
    obtain ⟨⟨⟩, rfl⟩ | ⟨before, hlog⟩ := check_cases hlog
    · exact .inl ⟨ho, fun _ => ⟨hd, _, _, rfl⟩, fun hn => absurd hc hn⟩
    · obtain ⟨⟨⟩, -⟩ | hlater := check_cases hlog
      exact .inr hlater

namespace Cursor.Trail

variable {c : Cursor} {log before after : List Event} {r : Except ParseFailure Cursor}
  {b : Bracket} {opener found : Token} {failure : ParseFailure}

theorem checked (h : Trail c log r) (hlog : before ++ .check b opener found :: after = log)
    {answer : Except ParseError Program}
    (hr : ∀ failure, r = .error failure → answer = .error failure.error) :
    Checked b opener found after answer := by
  induction h generalizing before with
  | done => simp at hlog
  | refused => simp at hlog
  | call _ ih =>
    obtain ⟨⟨⟩, -⟩ | ⟨before, hlog⟩ := check_cases hlog
    exact ih hlog hr
  | read hclear _ _ ih =>
    obtain hchecked | ⟨before, hlog⟩ := hclear.checked hlog
    · exact hchecked
    · exact ih hlog hr
  | broken hclear =>
    obtain hchecked | ⟨before, hlog⟩ := hclear.checked hlog
    · exact hchecked
    · simp at hlog
  | mismatched production ho hc hn =>
    obtain ⟨⟨⟩, rfl⟩ | ⟨before, hlog⟩ := check_cases hlog
    · refine ⟨ho, fun hcloses => absurd hcloses hn, fun _ => ⟨rfl, _, hr _ rfl, rfl, ?_⟩⟩
      rw [if_pos hc]
      rfl
    · simp at hlog
  | unclosed ho hc _ hfound hfault =>
    obtain ⟨⟨⟩, rfl⟩ | ⟨before, hlog⟩ := check_cases hlog
    · refine ⟨ho, fun hcloses => absurd (isClosing_of_closes hcloses) hc,
        fun _ => ⟨rfl, _, hr _ rfl, hfound, ?_⟩⟩
      rw [if_neg hc, hfault]
    · simp at hlog

theorem found_eq {d : Cursor} {s : Scanner} (h : Trail c log (.ok d)) (hp : c.lexer.peeked = none)
    (hs : s.next = (.ok c.current, c.lexer.scanner)) (hd : d.current.kind = .eof) :
    log.filterMap Event.found? = s.run.1.filter (·.isClosing) := by
  generalize hr : Except.ok d = r at h
  induction h generalizing s with
  | done =>
    cases hr
    have hopen := not_isClosing_of_kind hd (by decide)
    simp [Scanner.run_eof hs hd, hopen]
  | refused => cases hr
  | call _ ih => exact ih hp hs hr
  | read hclear hstep _ ih =>
    obtain ⟨hn, hp'⟩ := hstep.scanner hp
    have hrest := ih hp' hn hr
    rw [Scanner.run_cons hs hstep.1 rfl]
    cases hclear with
    | free hopen => simp [List.filterMap_cons, Event.found?, hopen, hrest]
    | closed _ hcloses _ =>
      simp [List.filterMap_cons, Event.found?, isClosing_of_closes hcloses, hrest]
  | broken => cases hr
  | mismatched => cases hr
  | unclosed => cases hr

theorem mismatch (h : Trail c log (.error failure))
    (hfault : failure.error.fault = .bracketMismatch) : Mismatched log failure.error := by
  generalize hr : Except.error failure = r at h
  induction h with
  | done => cases hr
  | refused _ _ hne =>
    cases hr
    exact absurd hfault hne
  | call _ ih => exact (ih hr).append [_]
  | read _ _ _ ih => exact ((ih hr).append [_]).append _
  | broken =>
    cases hr
    cases hfault
  | mismatched production ho hc hn =>
    cases hr
    exact ⟨[], _, _, rfl, hc, hn, rfl⟩
  | unclosed _ _ _ _ hother =>
    cases hr
    cases hother.symm.trans hfault

end Cursor.Trail

/-- Wherever a parse checks a closing bracket against the opening one, a bracket of the right shape
has the right depth and is taken. A parse fails with a mismatch only at a bracket of another shape
than the one that is expected, and one that succeeds has checked all closing brackets in order. -/
theorem Program.parse_closes_by_shape (source : List Char) :
    let run := (Lexer.ofSource source).traceParse
    run.answer = (Lexer.ofSource source).parse ∧
      (∀ before b opener found after, before ++ .check b opener found :: after = run.log →
        Checked b opener found after (Program.parse source)) ∧
      (∀ e, Program.parse source = .error e → e.fault = .bracketMismatch →
        Mismatched run.log e) ∧
      ∀ p, Program.parse source = .ok p →
        run.log.filterMap Event.found? = (lex source).1.filter (·.isClosing) := by
  intro run
  have hanswer : run.answer = (Lexer.ofSource source).parse := Lexer.answer_traceParse _
  have hparse : run.answer.1 = Program.parse source := congrArg Prod.fst hanswer
  refine ⟨hanswer, ?_⟩
  rw [← hparse]
  rcases Lexer.traceParse_cases source with
    ⟨e, l, -, hlog, hfail⟩ | ⟨c, log, r, hfirst, -, hlog, htrail, hend, -⟩
  · rw [hlog, hfail]
    refine ⟨?_, ?_, fun p hp => ?_⟩
    · intro before b opener found after h
      obtain ⟨⟨⟩, -⟩ | ⟨before, h⟩ := check_cases h
      simp at h
    · intro e' he hfault
      cases he
      cases hfault
    · cases hp
  · rw [hlog]
    refine ⟨?_, ?_, ?_⟩
    · intro before b opener found after h
      obtain ⟨⟨⟩, -⟩ | ⟨before, h⟩ := check_cases h
      apply htrail.checked h
      rintro failure rfl
      exact hend.fails
    · intro e he hfault
      obtain ⟨failure, rfl, rfl⟩ := hend.of_error he
      exact (htrail.mismatch hfault).append [_]
    · intro p hp
      obtain ⟨d, rfl, hd⟩ := hend.of_ok hp
      exact htrail.found_eq hfirst.1 hfirst.2 hd

end Reckon
