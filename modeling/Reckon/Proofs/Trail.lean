import Reckon.Proofs.Acceptance
import Reckon.Proofs.BracketDepth
import Reckon.Proofs.Trace

namespace Reckon

namespace Event

def isCall : Event → Bool
  | .call => true
  | _ => false

def read? : Event → Option Lexed
  | .read result => some result
  | _ => none

def calls (log : List Event) : Nat := log.countP isCall

def reads (log : List Event) : List Lexed := log.filterMap read?

variable {u v : List Event}

@[simp] theorem calls_nil : calls [] = 0 := rfl

@[simp] theorem calls_call : calls (.call :: u) = calls u + 1 := List.countP_cons_of_pos rfl

@[simp] theorem calls_read (r : Lexed) : calls (.read r :: u) = calls u :=
  List.countP_cons_of_neg Bool.false_ne_true

@[simp] theorem calls_check (b : Bracket) (s t : Token) : calls (.check b s t :: u) = calls u :=
  List.countP_cons_of_neg Bool.false_ne_true

@[simp] theorem reads_nil : reads [] = [] := rfl

@[simp] theorem reads_call : reads (.call :: u) = reads u := rfl

@[simp] theorem reads_read (r : Lexed) : reads (.read r :: u) = r :: reads u := rfl

@[simp] theorem reads_check (b : Bracket) (s t : Token) : reads (.check b s t :: u) = reads u := rfl

theorem calls_append : calls (u ++ v) = calls u + calls v := List.countP_append

theorem reads_append : reads (u ++ v) = reads u ++ reads v := List.filterMap_append

end Event

open Event (calls reads calls_append reads_append)

namespace Cursor

/-- What is logged before the current token is taken: a closing bracket has passed a check, and no
other token needs one. -/
inductive Cleared (c : Cursor) : List Event → Prop where
  | free : ¬ c.current.isClosing → Cleared c []
  | closed {b : Bracket} {opener : Token} : opener.opens b → c.current.closes b →
    c.current.depth = opener.depth → Cleared c [.check b opener c.current]

theorem Cleared.reads_append {c : Cursor} {checks log : List Event} (h : c.Cleared checks) :
    reads (checks ++ log) = reads log := by
  cases h <;> rfl

/-- The log of a parse from a cursor, and where the parse ends or how it fails. -/
inductive Trail : Cursor → List Event → Except ParseFailure Cursor → Prop where
  | done (c : Cursor) : Trail c [] (.ok c)
  | refused {c : Cursor} {failure : ParseFailure} : failure.lexer = c.lexer →
    failure.error.found = c.current → failure.error.fault ≠ .bracketMismatch →
    Trail c [] (.error failure)
  | call {c : Cursor} {log : List Event} {r : Except ParseFailure Cursor} :
    Trail c log r → Trail c (.call :: log) r
  | read {c d : Cursor} {checks log : List Event} {r : Except ParseFailure Cursor} :
    c.Cleared checks → c.Step d → Trail d log r →
    Trail c (checks ++ .read (.ok d.current) :: log) r
  | broken {c : Cursor} {checks : List Event} {e : LexError} {l : Lexer} : c.Cleared checks →
    c.current.kind ≠ .eof → c.lexer.next = (.error e, l) →
    Trail c (checks ++ [.read (.error e)]) (.error (lexicalFailure c.current e l))
  | mismatched {c : Cursor} {b : Bracket} {opener : Token} (production : String) :
    opener.opens b → c.current.isClosing → ¬ c.current.closes b →
    Trail c [.check b opener c.current] (.error (c.fail .bracketMismatch production
      (Lexeme.closing b.closer opener.depth).describe))
  | unclosed {c : Cursor} {b : Bracket} {opener : Token} {failure : ParseFailure} :
    opener.opens b → ¬ c.current.isClosing → failure.lexer = c.lexer →
    failure.error.found = c.current → failure.error.fault = .unexpectedToken →
    Trail c [.check b opener c.current] (.error failure)

def Fresh (c : Cursor) : Prop := ∃ n, c.At n

theorem Fresh.step {c d : Cursor} (h : c.Fresh) (hs : c.Step d) : d.Fresh := by
  obtain ⟨n, hn⟩ := h
  exact ⟨_, hn.step hs⟩

namespace Trail

variable {c d : Cursor} {u v : List Event} {r : Except ParseFailure Cursor}

theorem append (h : Trail c u (.ok d)) (h' : Trail d v r) : Trail c (u ++ v) r := by
  generalize hr : Except.ok d = r₁ at h
  induction h with
  | done => cases hr; exact h'
  | refused => cases hr
  | call _ ih => exact .call (ih hr)
  | read hclear hs _ ih =>
    rw [List.append_assoc]
    exact .read hclear hs (ih hr)
  | broken => cases hr
  | mismatched => cases hr
  | unclosed => cases hr

theorem fresh (h : Trail c u (.ok d)) (hc : c.Fresh) : d.Fresh := by
  generalize hr : Except.ok d = r at h
  induction h with
  | done => cases hr; exact hc
  | refused => cases hr
  | call _ ih => exact ih hc hr
  | read _ hs _ ih => exact ih (hc.step hs) hr
  | broken => cases hr
  | mismatched => cases hr
  | unclosed => cases hr

end Trail

/-- From a cursor a computation leaves a log and ends at a cursor that goes with what it returns. It
makes ten calls for each token that is read, and at most `k` more than these, or `m` if it fails. -/
structure Leaves {α : Type} (c : Cursor) (ends : α → Cursor → Prop) (k m : Int) (x : Traced α) :
    Prop where
  ok : ∀ a, x.result = .ok a → ∃ d, ends a d ∧ Trail c x.log (.ok d) ∧
    (calls x.log : Int) ≤ 10 * (reads x.log).length + k
  error : ∀ failure, x.result = .error failure → Trail c x.log (.error failure) ∧
    (calls x.log : Int) ≤ 10 * (reads x.log).length + m

namespace Leaves

variable {α β : Type} {c : Cursor} {ends : α → Cursor → Prop} {ends' : β → Cursor → Prop}
  {k k' m m' : Int} {x : Traced α} {f : α → Traced β}

theorem of_ok {a : α} {d : Cursor} (hr : x.result = .ok a) (hd : ends a d)
    (htrail : Trail c x.log (.ok d)) (hcost : (calls x.log : Int) ≤ 10 * (reads x.log).length + k) :
    Leaves c ends k m x where
  ok b hb := by
    cases hr.symm.trans hb
    exact ⟨d, hd, htrail, hcost⟩
  error _ hfail := by cases hr.symm.trans hfail

theorem of_error {failure : ParseFailure} (hr : x.result = .error failure)
    (htrail : Trail c x.log (.error failure))
    (hcost : (calls x.log : Int) ≤ 10 * (reads x.log).length + m) : Leaves c ends k m x where
  ok _ hb := by cases hr.symm.trans hb
  error _ hfail := by
    cases hr.symm.trans hfail
    exact ⟨htrail, hcost⟩

theorem bind (p q : Int) (hx : Leaves c ends k m x) (hc : c.Fresh)
    (hf : ∀ a d, x.result = .ok a → ends a d → d.Fresh → Leaves d ends' p q (f a))
    (hk : k + p ≤ k' := by omega) (hm : m ≤ m' := by omega) (hq : k + q ≤ m' := by omega) :
    Leaves c ends' k' m' (x >>= f) := by
  cases hr : x.result with
  | error failure =>
    obtain ⟨htrail, hcost⟩ := hx.error failure hr
    rw [Traced.bind_error hr]
    refine of_error rfl htrail ?_
    dsimp only
    omega
  | ok a =>
    obtain ⟨d, hends, htrail, hcost⟩ := hx.ok a hr
    have hrest := hf a d hr hends (htrail.fresh hc)
    rw [Traced.bind_ok hr]
    constructor
    · intro b hb
      obtain ⟨e, he, htrail', hcost'⟩ := hrest.ok b hb
      refine ⟨e, he, htrail.append htrail', ?_⟩
      rw [calls_append, reads_append, List.length_append]
      omega
    · intro failure hfail
      obtain ⟨htrail', hcost'⟩ := hrest.error failure hfail
      refine ⟨htrail.append htrail', ?_⟩
      rw [calls_append, reads_append, List.length_append]
      omega

theorem pure {a : α} (ha : ends a c) (hk : 0 ≤ k := by omega) :
    Leaves c ends k m (Pure.pure a) := by
  refine of_ok rfl ha (.done c) ?_
  change (calls [] : Int) ≤ 10 * (reads []).length + k
  simpa using hk

theorem refused {failure : ParseFailure} (hl : failure.lexer = c.lexer)
    (hfound : failure.error.found = c.current) (hfault : failure.error.fault ≠ .bracketMismatch)
    (hm : 0 ≤ m := by omega) : Leaves c ends k m (Watch.stop failure) := by
  refine of_error rfl (.refused hl hfound hfault) ?_
  simpa [Watch.stop] using hm

theorem fail {fault : ParseFault} {production expected : String} (hm : 0 ≤ m := by omega)
    (hfault : fault ≠ .bracketMismatch := by decide) :
    Leaves c ends k m (Watch.stop (c.fail fault production expected)) :=
  refused rfl rfl hfault hm

theorem call (hx : Leaves c ends k m x) (hk : k + 1 ≤ k' := by omega)
    (hm : m + 1 ≤ m' := by omega) :
    Leaves c ends k' m' (do Watch.note .call; x) := by
  rw [Traced.note_bind]
  constructor
  · intro a ha
    obtain ⟨d, hd, htrail, hle⟩ := hx.ok a ha
    refine ⟨d, hd, .call htrail, ?_⟩
    rw [Event.calls_call, Event.reads_call]
    omega
  · intro failure hfail
    obtain ⟨htrail, hle⟩ := hx.error failure hfail
    refine ⟨.call htrail, ?_⟩
    rw [Event.calls_call, Event.reads_call]
    omega

theorem dite {p : Prop} [Decidable p] {f : p → Traced α} {g : ¬ p → Traced α}
    (hpos : ∀ h, Leaves c ends k m (f h)) (hneg : ∀ h, Leaves c ends k m (g h)) :
    Leaves c ends k m (if h : p then f h else g h) :=
  of_dite hpos hneg

theorem ite {p : Prop} [Decidable p] {y : Traced α} (hpos : p → Leaves c ends k m x)
    (hneg : ¬ p → Leaves c ends k m y) : Leaves c ends k m (if p then x else y) :=
  dite hpos hneg

end Leaves

section

variable {c : Cursor}

theorem leaves_take (h : c.current.kind ≠ .eof) (hc : ¬ c.current.isClosing) :
    Leaves c (fun a d => a.1 = d) (-10) (-10) (c.take h) := by
  rcases hn : c.lexer.next with ⟨e | t, l⟩
  · rw [take_eq_of_error h hn]
    exact .of_error rfl (.broken (.free hc) h hn) (by simp [Traced.note_bind, Watch.stop])
  · have hstep : c.Step ⟨t, l⟩ := ⟨h, hn⟩
    rw [hstep.take_eq]
    exact .of_ok rfl rfl (.read (.free hc) hstep (.done _)) (by simp [Traced.note_bind, Pure.pure])

theorem not_isClosing_of_kind {l : Lexeme} {k : TokenKind} (hl : l.kind = k)
    (hk : k ≠ .punctuation) : ¬ l.isClosing := by
  subst hl
  simp [Lexeme.isClosing, hk]

theorem not_isClosing_of_isOpening {l : Lexeme} {a : Char} (h : l.isOpening a) :
    ¬ l.isClosing := by
  simp only [Lexeme.isOpening, decide_eq_true_eq] at h
  simp [Lexeme.isClosing, h]

theorem not_isClosing_of_isBlank {l : Lexeme} (h : l.isBlank) : ¬ l.isClosing := by
  rcases kind_of_isBlank h with hk | hk
  · exact not_isClosing_of_kind hk (by decide)
  · exact not_isClosing_of_kind hk (by decide)

theorem leaves_skipBlank (hc : c.Fresh) :
    Leaves c (fun a d => a.1 = d) 0 0 c.skipBlank := by
  induction c using skipBlank.induct with
  | case1 c hb ih =>
    rw [skipBlank.eq_def, dif_pos hb]
    refine (leaves_take _ (not_isClosing_of_isBlank hb)).bind 0 0 hc ?_
    rintro ⟨d, hd⟩ _ - rfl hfresh
    refine (ih d hd hfresh).bind 0 0 hfresh ?_
    rintro ⟨e, he⟩ _ - rfl -
    exact .pure rfl
  | case2 c hb =>
    rw [skipBlank.eq_def, dif_neg hb]
    exact .pure rfl

theorem is_of_closes {b : Bracket} {l : Lexeme} (h : l.closes b) :
    l.Is .punctuation (.ofChars [b.closer]) := by
  simp only [Lexeme.closes, Lexeme.isClosing, Bool.and_eq_true, decide_eq_true_eq] at h
  exact ⟨h.1.1, h.2⟩

theorem closes_closing (b : Bracket) (depth : Int) : (Lexeme.closing b.closer depth).closes b := by
  simp [Lexeme.closes, Lexeme.isClosing, Lexeme.closing]

/-- Behind an expression in brackets all inner brackets are closed, and so the closing bracket that
stands there has the depth of the opening one. -/
theorem closing_of_reads {b : Bracket} {d e f g : Cursor} {expr : Expr} (hc : c.Fresh)
    (ho : c.current.opens b) (hs : c.Step d) (hskip : d.Skips e)
    (he : Reads (.tier .logical) e expr f) (hskip' : f.Skips g) (hg : g.current.closes b) :
    g.current.toLexeme = .closing b.closer c.current.depth := by
  obtain ⟨n, hn⟩ := hc
  obtain ⟨⟨u, hu, hsteps⟩, -⟩ := hskip
  obtain ⟨⟨w, hw, hsteps'⟩, -⟩ := hskip'
  obtain ⟨v, hv, hderived⟩ := Grammar.derived_of_reads he
  have hinner := ((Grammar.Balanced.blanks hu).append (Grammar.Derives.balanced hderived)).append
    (.blanks hw)
  exact (hinner.closes hn (Grammar.is_of_isOpening ho) hs ((hsteps.trans hv).trans hsteps')
    (is_of_closes hg)).1

theorem leaves_check {α : Type} {b : Bracket} {opener : Token} {want : Lexeme}
    {ends : α → Cursor → Prop} (production : String) (back : Smaller c → α)
    (hwant : want = .closing b.closer opener.depth) (hk : want.kind ≠ .eof) (ho : opener.opens b)
    (hclose : c.current.closes b → c.current.toLexeme = want) (hback : ∀ d, ends (back d) d.1) :
    Leaves c ends (-10) 0 (do
      Watch.note (.check b opener c.current)
      if c.current.isClosing ∧ c.current.toLexeme ≠ want then
        Watch.stop (c.fail .bracketMismatch production want.describe)
      else return back (← c.expect want hk)) := by
  subst hwant
  rw [Traced.note_bind]
  by_cases hshut : c.current.toLexeme = .closing b.closer opener.depth
  · have hcloses : c.current.closes b := hshut ▸ closes_closing b _
    have hdepth : c.current.depth = opener.depth := by rw [hshut]; rfl
    have htake : c.current.kind ≠ .eof := by rw [hshut]; exact hk
    have hclear := Cleared.closed ho hcloses hdepth
    rw [if_neg (fun h => h.2 hshut), expect, dif_pos hshut]
    rcases hn : c.lexer.next with ⟨e | t, l⟩
    · rw [take_eq_of_error htake hn, Traced.bind_error rfl]
      refine .of_error rfl (.broken hclear htake hn) ?_
      simp [Traced.note_bind, Watch.stop]
    · have hstep : c.Step ⟨t, l⟩ := ⟨htake, hn⟩
      rw [hstep.take_eq, Traced.bind_ok rfl]
      refine .of_ok rfl (hback ⟨_, _⟩) (.read hclear hstep (.done _)) ?_
      simp [Traced.note_bind, Pure.pure]
  · have hshape : ¬ c.current.closes b := fun h => hshut (hclose h)
    by_cases hclosing : c.current.isClosing
    · rw [if_pos ⟨hclosing, hshut⟩]
      refine .of_error rfl (.mismatched production ho hclosing hshape) ?_
      simp [Watch.stop]
    · rw [if_neg (fun h => hclosing h.1), expect, dif_neg hshut, Traced.bind_error rfl]
      refine .of_error rfl (.unclosed ho hclosing rfl rfl rfl) ?_
      simp [Watch.stop]

end

theorem rank_some (t : Tier) : rank (some t) = rank t.tighter + 1 := by cases t <;> rfl

theorem rank_tighter_le (t : Tier) : rank t.tighter ≤ 4 := by cases t <;> decide

-- A factor saves eight of the calls that its tokens pay for. Each tier around it spends two of
-- these, for itself and for the end of its chain, so that one is left at the loosest tier.
mutual

theorem leaves_parseTier (tier : Option Tier) (c : Cursor) (hc : c.Fresh) :
    Leaves c (fun r d => r.after = d) (2 * rank tier - 11) (rank tier + 1) (parseTier tier c) := by
  rw [parseTier.eq_def]
  cases tier with
  | none =>
    have hrank : rank none = 2 := rfl
    exact (leaves_parseFactor c hc).call
  | some t =>
    have hrank := rank_some t
    have hle := rank_tighter_le t
    refine Leaves.call (k := 2 * rank t.tighter - 10) (m := rank t.tighter + 1) ?_
    refine (leaves_parseTier t.tighter c hc).bind 1 1 hc ?_
    rintro ⟨left, d, hd⟩ _ - rfl hfresh
    refine (leaves_parseChain t left d hfresh).bind 0 0 hfresh ?_
    rintro ⟨e, f, hf⟩ _ - rfl -
    exact .pure rfl
termination_by (c.size, rank tier)
decreasing_by
  · exact Prod.Lex.right _ (by decide)
  · exact Prod.Lex.right _ (by cases t <;> decide)
  · exact Prod.Lex.left _ _ hd

theorem leaves_parseChain (t : Tier) (left : Expr) (c : Cursor) (hc : c.Fresh) :
    Leaves c (fun r d => r.after = d) 1 1 (parseChain t left c) := by
  have hle := rank_tighter_le t
  rw [parseChain.eq_def]
  refine Leaves.call (k := 0) (m := 0) ?_
  apply Leaves.dite
  · intro hk
    have hopen := not_isClosing_of_kind hk (by decide)
    cases OpKind.ofBinary? c.current.raw.toString with
    | none => exact .ite (fun _ => .fail) (fun _ => .pure rfl)
    | some kind =>
      apply Leaves.ite
      · intro _
        refine (leaves_take _ hopen).bind 0 5 hc ?_
        rintro ⟨d, hd⟩ _ - rfl hd'
        refine (leaves_parseTier t.tighter d hd').bind 1 1 hd' ?_
        rintro ⟨right, e, he⟩ _ - rfl he'
        refine (leaves_parseChain t _ e he').bind 0 0 he' ?_
        rintro ⟨all, f, hf⟩ _ - rfl -
        exact .pure rfl
      · intro _
        exact .pure rfl
  · intro _
    exact .pure rfl
termination_by (c.size, 0)
decreasing_by
  · exact Prod.Lex.left _ _ hd
  · exact Prod.Lex.left _ _ (Nat.lt_trans he hd)

theorem leaves_blank (c : Cursor) (hc : c.Fresh) (hb : c.current.isBlank) :
    Leaves c (fun r d => r.after = d) (-8) 2 (parseFactor c) := by
  have hrank : rank (some .logical) = 5 := rfl
  rw [parseFactor_blank hb]
  refine Leaves.call (k := -9) (m := 1) ?_
  refine (leaves_take _ (not_isClosing_of_isBlank hb)).bind 0 6 hc ?_
  rintro ⟨d, hd⟩ _ - rfl hd'
  refine (leaves_parseTier _ d hd').bind 0 0 hd' ?_
  rintro ⟨e, f, hf⟩ _ - rfl -
  exact .pure rfl
termination_by (c.size, 0)

theorem leaves_parseFactor (c : Cursor) (hc : c.Fresh) :
    Leaves c (fun r d => r.after = d) (-8) 2 (parseFactor c) := by
  have unfit (h : Unfit c.current) :
      Leaves c (fun r d => r.after = d) (-8) 2 (parseFactor c) := by
    rw [parseFactor_unfit h]
    exact Leaves.call (k := -9) (m := 1) .fail
  cases hk : c.current.kind with
  | numeric =>
    cases hl : c.current.literal with
    | error e =>
      rw [parseFactor_malformed hk hl]
      exact Leaves.call (k := -9) (m := 1) (.refused rfl rfl ParseFault.noConfusion)
    | ok l =>
      rw [parseFactor_numeric hk hl]
      refine Leaves.call (k := -10) (m := -10) ?_
      refine (leaves_take _ (not_isClosing_of_kind hk (by decide))).bind 0 0 hc ?_
      rintro ⟨d, hd⟩ _ - rfl -
      exact .pure rfl
  | string =>
    rw [parseFactor_string hk]
    refine Leaves.call (k := -10) (m := -10) ?_
    refine (leaves_take _ (not_isClosing_of_kind hk (by decide))).bind 0 0 hc ?_
    rintro ⟨d, hd⟩ _ - rfl -
    exact .pure rfl
  | operator =>
    cases hs : OpKind.ofSign? c.current.raw.toString with
    | none => exact unfit (.operator hk hs)
    | some kind =>
      rw [parseFactor_sign hk hs]
      refine Leaves.call (k := -9) (m := 1) ?_
      refine (leaves_take _ (not_isClosing_of_kind hk (by decide))).bind 0 2 hc ?_
      rintro ⟨d, hd⟩ _ - rfl hd'
      refine (leaves_parseFactor d hd').bind 0 0 hd' ?_
      rintro ⟨operand, e, he⟩ _ - rfl -
      exact .pure rfl
  | punctuation =>
    by_cases ho : c.current.isOpening '('
    · rw [parseFactor_opening ho]
      exact (leaves_parseDelimited .round "group" c _ hc ho).call
    · exact unfit (.punctuation hk ho)
  | identifier =>
    rw [parseFactor_identifier hk]
    exact (leaves_parseName c _ hc (not_isClosing_of_kind hk (by decide))).call
  | keyword =>
    rw [parseFactor_keyword hk]
    exact (leaves_parseKeyword c _ hc (not_isClosing_of_kind hk (by decide))).call
  | comment => exact leaves_blank c hc (by simp [Lexeme.isBlank, hk])
  | eol => exact leaves_blank c hc (by simp [Lexeme.isBlank, hk])
  | eof => exact unfit (.eof hk)
  | other code => exact unfit (.other hk)
termination_by (c.size, 1)

theorem leaves_parseDelimited (b : Bracket) (production : String) (c : Cursor)
    (h : c.current.kind ≠ .eof) (hc : c.Fresh) (ho : c.current.opens b) :
    Leaves c (fun r d => r.after = d) (-9) 0 (parseDelimited b production c h) := by
  have hrank : rank (some .logical) = 5 := rfl
  rw [parseDelimited.eq_def]
  refine Leaves.call (k := -10) (m := -1) ?_
  refine (leaves_take h (not_isClosing_of_isOpening ho)).bind 0 6 hc ?_
  rintro ⟨d, hd⟩ _ htake rfl hd'
  refine (leaves_skipBlank hd').bind 0 6 hd' ?_
  rintro ⟨e, he⟩ _ hskip rfl he'
  refine (leaves_parseTier _ e he').bind 0 0 he' ?_
  rintro ⟨expr, f, hf⟩ _ hexpr rfl hf'
  refine (leaves_skipBlank hf').bind (-10) 0 hf' ?_
  rintro ⟨g, hg⟩ _ hskip' rfl hg'
  have hclose := closing_of_reads hc ho (step_of_result htake) (skips_of_result hskip)
    (reads_of_result hexpr) (skips_of_result hskip')
  have back (i : Smaller g) : i.1.size < c.size := size_lt_of_delimited hd he hf hg i.2
  exact leaves_check production (fun i => Parsed.mk expr i.1 (back i)) rfl _ ho hclose fun _ => rfl
termination_by (c.size, 0)

theorem leaves_parseName (c : Cursor) (h : c.current.kind ≠ .eof) (hc : c.Fresh)
    (hopen : ¬ c.current.isClosing) :
    Leaves c (fun r d => r.after = d) (-9) 1 (parseName c h) := by
  have hrank : rank (some .logical) = 5 := rfl
  rw [parseName.eq_def]
  refine Leaves.call (k := -10) (m := 0) ?_
  refine (leaves_take h hopen).bind 0 6 hc ?_
  rintro ⟨d, hd⟩ _ - rfl hd'
  apply Leaves.dite
  · intro heq
    have hopen' := not_isClosing_of_kind (kind_of_isOperator heq) (by decide)
    refine (leaves_take _ hopen').bind 0 6 hd' ?_
    rintro ⟨e, he⟩ _ - rfl he'
    refine (leaves_parseTier _ e he').bind 0 0 he' ?_
    rintro ⟨value, f, hf⟩ _ - rfl -
    exact .pure rfl
  intro _
  apply Leaves.dite
  · intro ho
    refine (leaves_parseDelimited .round _ d _ hd' ho).bind 0 0 hd' ?_
    rintro ⟨arg, e, he⟩ _ - rfl -
    exact .pure rfl
  intro _
  apply Leaves.dite
  · intro ho
    refine (leaves_parseDelimited .square _ d _ hd' ho).bind 0 0 hd' ?_
    rintro ⟨index, e, he⟩ _ - rfl -
    exact .pure rfl
  intro _
  exact .ite (fun _ => .pure rfl) (fun _ => .fail)
termination_by (c.size, 0)

theorem leaves_parseKeyword (c : Cursor) (h : c.current.kind ≠ .eof) (hc : c.Fresh)
    (hopen : ¬ c.current.isClosing) :
    Leaves c (fun r d => r.after = d) (-9) 1 (parseKeyword c h) := by
  rw [parseKeyword.eq_def]
  refine Leaves.call (k := -10) (m := 0) ?_
  apply Leaves.ite
  · intro _
    refine (leaves_take h hopen).bind 0 0 hc ?_
    rintro ⟨d, hd⟩ _ - rfl -
    exact .pure rfl
  intro _
  apply Leaves.ite
  · intro _
    refine (leaves_take h hopen).bind 0 0 hc ?_
    rintro ⟨d, hd⟩ _ - rfl hd'
    apply Leaves.dite
    · intro ho
      refine (leaves_parseDelimited .round _ d _ hd' ho).bind 0 0 hd' ?_
      rintro ⟨arg, e, he⟩ _ - rfl he'
      apply Leaves.ite
      · intro _
        exact .pure rfl
      intro _
      apply Leaves.dite
      · intro hb
        refine (leaves_parseDelimited .curly _ e _ he' hb).bind 0 0 he' ?_
        rintro ⟨body, f, hf⟩ _ - rfl -
        exact .pure rfl
      · intro _
        exact .fail
    · intro _
      exact .fail
  · intro _
    exact .fail
termination_by (c.size, 0)

end

theorem leaves_parseStatements (c : Cursor) (hc : c.Fresh) :
    Leaves c (fun r d => d.current.kind = .eof ∧ r.2 = d.lexer) 1 7 c.parseStatements := by
  induction c using parseStatements.induct with
  | case1 c ih =>
    have hrank : rank (some .logical) = 5 := rfl
    rw [parseStatements.eq_def]
    refine Leaves.call (k := 0) (m := 6) ?_
    refine (leaves_skipBlank hc).bind 0 6 hc ?_
    rintro ⟨d, hd⟩ _ - rfl hd'
    apply Leaves.ite
    · intro hk
      exact .pure ⟨hk, rfl⟩
    intro _
    refine (leaves_parseTier _ d hd').bind 1 7 hd' ?_
    rintro ⟨e, f, hf⟩ _ - rfl hf'
    apply Leaves.ite
    · intro _
      refine (ih d hd f hf hf').bind 0 0 hf' ?_
      rintro ⟨es, l⟩ g - ⟨hg, hl⟩ -
      exact .pure ⟨hg, hl⟩
    · intro _
      exact .fail

theorem First.fresh {source : List Char} {c : Cursor} (h : First source c) : c.Fresh :=
  ⟨{}, h.1, Scanner.next_nests h.2⟩

inductive Answers : Except ParseFailure Cursor → Except ParseError Program × Lexer → Prop where
  | ok {d : Cursor} {p : Program} : d.current.kind = .eof → Answers (.ok d) (.ok p, d.lexer)
  | error (failure : ParseFailure) : Answers (.error failure) (.error failure.error, failure.lexer)

section

variable {r : Except ParseFailure Cursor} {answer : Except ParseError Program × Lexer}

theorem Answers.of_ok (h : Answers r answer) {p : Program} (hp : answer.1 = .ok p) :
    ∃ d, r = .ok d ∧ d.current.kind = .eof := by
  cases h with
  | ok hd => exact ⟨_, rfl, hd⟩
  | error => cases hp

theorem Answers.fails {failure : ParseFailure} (h : Answers (.error failure) answer) :
    answer.1 = .error failure.error := by
  cases h
  rfl

theorem Answers.of_error (h : Answers r answer) {e : ParseError} (he : answer.1 = .error e) :
    ∃ failure, r = .error failure ∧ failure.error = e := by
  cases h with
  | ok => cases he
  | error failure =>
    cases he
    exact ⟨failure, rfl, rfl⟩

end

theorem Leaves.answers {c : Cursor} {k m : Int} {x : Traced (List Expr × Lexer)}
    (h : Leaves c (fun r d => d.current.kind = .eof ∧ r.2 = d.lexer) k m x) :
    ∃ r, Trail c x.log r ∧ Answers r x.answer := by
  cases hr : x.result with
  | ok a =>
    obtain ⟨d, ⟨hd, hl⟩, htrail, -⟩ := h.ok a hr
    refine ⟨.ok d, htrail, ?_⟩
    rw [Traced.answer_of_ok hr, hl]
    exact .ok hd
  | error failure =>
    refine ⟨.error failure, (h.error failure hr).1, ?_⟩
    rw [Traced.answer_of_error hr]
    exact .error failure

theorem Leaves.calls_le {α : Type} {c : Cursor} {ends : α → Cursor → Prop} {k m n : Int}
    {x : Traced α} (h : Leaves c ends k m x) (hk : k ≤ n) (hm : m ≤ n) :
    (calls x.log : Int) ≤ 10 * (reads x.log).length + n := by
  cases hr : x.result with
  | ok a =>
    obtain ⟨_, _, _, hle⟩ := h.ok a hr
    omega
  | error failure =>
    have := (h.error failure hr).2
    omega

end Cursor

/-- A parse of a source asks for the first token and, if there is one, leaves a trail from there. -/
theorem Lexer.traceParse_cases (source : List Char) :
    let run := (ofSource source).traceParse
    (∃ e l, (ofSource source).next = (.error e, l) ∧ run.log = [.read (.error e)] ∧
      run.answer = (.error (Cursor.lexicalFailure .zero e l).error, l)) ∨
    ∃ c log r, Cursor.First source c ∧ (ofSource source).next = (.ok c.current, c.lexer) ∧
      run.log = .read (.ok c.current) :: log ∧ Cursor.Trail c log r ∧
      Cursor.Answers r run.answer ∧ calls log ≤ 10 * (reads log).length + 7 := by
  intro run
  rcases hn : (ofSource source).next with ⟨e | t, l⟩
  · have hrun : run = ⟨[.read (.error e)], .error (Cursor.lexicalFailure .zero e l)⟩ := by
      show (Cursor.ofLexer (ofSource source) >>= _ : Traced _) = _
      rw [Cursor.ofLexer_of_error hn]
      rfl
    exact .inl ⟨e, l, rfl, hrun ▸ rfl, hrun ▸ rfl⟩
  · have hfirst : Cursor.First source ⟨t, l⟩ := by
      rw [← Cursor.ofLexer_eq_ok, Cursor.ofLexer_of_ok hn, note_bind]
      rfl
    have hleaves := Cursor.leaves_parseStatements _ hfirst.fresh
    obtain ⟨r, htrail, hanswers⟩ := hleaves.answers
    have hcalls := hleaves.calls_le (by decide : (1 : Int) ≤ 7) (Int.le_refl _)
    have hrun : run = ⟨.read (.ok t) :: (Cursor.parseStatements ⟨t, l⟩ : Traced _).log,
        (Cursor.parseStatements ⟨t, l⟩ : Traced _).result⟩ := by
      show (Cursor.ofLexer (ofSource source) >>= _ : Traced _) = _
      rw [Cursor.ofLexer_of_ok hn]
      rfl
    exact .inr ⟨⟨t, l⟩, _, r, hfirst, rfl, hrun ▸ rfl, htrail, hrun ▸ hanswers, by omega⟩

end Reckon
