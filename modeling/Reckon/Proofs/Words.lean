import Reckon.Proofs.Acceptance

namespace Reckon

def Lexeme.unnested (l : Lexeme) : Lexeme := { l with depth := 0 }

theorem Token.literal_eq {t t' : Token} {v : Literal} (h : t.literal = .ok v)
    (hk : t'.kind = t.kind) (hr : t'.raw = t.raw) (hh : t'.hint = t.hint) : t'.literal = .ok v := by
  unfold literal at h ⊢
  rw [hk, hr, hh]
  split at h
  · cases h
  case isFalse hn =>
    rw [if_neg hn]
    split at h
    case isTrue hp =>
      rw [if_pos hp]
      cases hx : Single.read? t.raw.chars <;> rw [hx] at h <;> cases h
      rfl
    case isFalse hp =>
      rw [if_neg hp]
      cases hx : int32? t.raw.chars <;> rw [hx] at h <;> cases h
      rfl

inductive Cursor.Spans : Cursor → List Lexeme → Prop where
  | last {c : Cursor} : c.current.kind = .eof → Spans c [c.current.toLexeme.unnested]
  | cons {c d : Cursor} {w : List Lexeme} :
    c.Step d → Spans d w → Spans c (c.current.toLexeme.unnested :: w)

namespace Grammar

open Cursor (Step Steps Spans)

/-- A part of the parser takes an expression off some lexemes and leaves the rest. -/
inductive Parses : Part → List Lexeme → Expr → List Lexeme → Prop where
  | tier {t : Tier} {v w x : List Lexeme} {left e : Expr} :
    Parses (.ofTier t.tighter) v left w → Parses (.chain t left) w e x → Parses (.tier t) v e x
  | stop {t : Tier} {l : Lexeme} {w : List Lexeme} {left : Expr} :
    t.Stops l → Parses (.chain t left) (l :: w) left (l :: w)
  | more {t : Tier} {l : Lexeme} {v w x : List Lexeme} {k : OpKind} {left right all : Expr} :
    l.kind = .operator → OpKind.ofBinary? l.raw.toString = some k → k.tier? = some t →
    Parses (.ofTier t.tighter) v right w → Parses (.chain t (.binary k left right)) w all x →
    Parses (.chain t left) (l :: v) all x
  | numeral {l : Lexeme} {w : List Lexeme} {v : Literal} :
    l.kind = .numeric → Token.literal { toLexeme := l } = .ok v →
    Parses .factor (l :: w) (.literal v) w
  | string {l : Lexeme} {w : List Lexeme} :
    l.kind = .string → Parses .factor (l :: w) (.literal (.string l.raw)) w
  | constant {l : Lexeme} {w : List Lexeme} {b : Bool} :
    l.kind = .keyword → l.raw.toString = (if b then "true" else "false") →
    Parses .factor (l :: w) (.literal (.boolean b)) w
  | sign {l : Lexeme} {v w : List Lexeme} {k : OpKind} {e : Expr} :
    l.kind = .operator → OpKind.ofSign? l.raw.toString = some k → Parses .factor v e w →
    Parses .factor (l :: v) (.unary k e) w
  | group {l : Lexeme} {v w : List Lexeme} {e : Expr} :
    l.isOpening '(' → Parses (.delimited .round) (l :: v) e w → Parses .factor (l :: v) e w
  | name {l m : Lexeme} {w : List Lexeme} :
    l.kind = .identifier → ¬ m.isOperator "=" → Cursor.endsOperand m →
    Parses .factor (l :: m :: w) (.symbol l.raw.toString) (m :: w)
  | assignment {l m : Lexeme} {v w : List Lexeme} {e : Expr} :
    l.kind = .identifier → m.isOperator "=" → Parses (.tier .logical) v e w →
    Parses .factor (l :: m :: v) (.binary .assignment (.symbol l.raw.toString) e) w
  | call {l m : Lexeme} {v w : List Lexeme} {e : Expr} :
    l.kind = .identifier → m.isOpening '(' → Parses (.delimited .round) (m :: v) e w →
    Parses .factor (l :: m :: v) (.call l.raw.toString e) w
  | index {l m : Lexeme} {v w : List Lexeme} {e : Expr} :
    l.kind = .identifier → m.isOpening '[' → Parses (.delimited .square) (m :: v) e w →
    Parses .factor (l :: m :: v) (.binary .index (.symbol l.raw.toString) e) w
  | command {l m x : Lexeme} {v w : List Lexeme} {word : String} {e : Expr} :
    l.kind = .keyword → l.raw.toString = word → word = "print" ∨ word = "if" → m.isOpening '(' →
    Parses (.delimited .round) (m :: v) e (x :: w) → Cursor.endsOperand x →
    Parses .factor (l :: m :: v) (.call word e) (x :: w)
  | block {l m x : Lexeme} {v w y : List Lexeme} {word : String} {e f : Expr} :
    l.kind = .keyword → l.raw.toString = word → word = "print" ∨ word = "if" → m.isOpening '(' →
    Parses (.delimited .round) (m :: v) e (x :: w) → x.isOpening Bracket.curly.opener →
    Parses (.delimited .curly) (x :: w) f y →
    Parses .factor (l :: m :: v) (.define word e f) y
  | blank {l : Lexeme} {v w : List Lexeme} {e : Expr} :
    l.isBlank → Parses (.tier .logical) v e w → Parses .factor (l :: v) e w
  | delimited {b : Bracket} {l m y : Lexeme} {u v w x : List Lexeme} {e : Expr} :
    Blanks u → ¬ m.isBlank → Parses (.tier .logical) (m :: v) e (w ++ y :: x) → Blanks w →
    y = .closing b.closer 0 → Parses (.delimited b) (l :: u ++ m :: v) e x

/-- Some lexemes do not go on with an operator. -/
def Closed (w : List Lexeme) : Prop := ∀ l ∈ w.head?, l.kind ≠ .operator

inductive ParsesAll : List Lexeme → List Expr → Prop where
  | done {u : List Lexeme} {l : Lexeme} : Blanks u → l.kind = .eof → ParsesAll (u ++ [l]) []
  | cons {u v w : List Lexeme} {l m : Lexeme} {e : Expr} {es : List Expr} :
    Blanks u → ¬ l.isBlank → l.kind ≠ .eof → Parses (.tier .logical) (l :: v) e (m :: w) →
    endsStatement m → ParsesAll (m :: w) es → ParsesAll (u ++ l :: v) (e :: es)

theorem Joins.unique {t t' : Tier} {l : Lexeme} (h : Joins t l) (h' : Joins t' l) : t = t' := by
  obtain ⟨s, k, hs, hl⟩ := h
  obtain ⟨s', k', hs', hl'⟩ := h'
  obtain ⟨hb, hk⟩ := mem_operators.1 hs
  obtain ⟨hb', hk'⟩ := mem_operators.1 hs'
  rw [← hl.toString_raw] at hb
  rw [← hl'.toString_raw, hb] at hb'
  cases hb'
  exact Option.some.inj (hk.symm.trans hk')

section Spans

variable {c d : Cursor} {u v w : List Lexeme}

theorem spans_eq_cons (h : c.Spans w) : ∃ v, w = c.current.toLexeme.unnested :: v := by
  cases h with
  | last => exact ⟨[], rfl⟩
  | cons => exact ⟨_, rfl⟩

theorem spans_head {l : Lexeme} (h : c.Spans (l :: w)) : l = c.current.toLexeme.unnested := by
  cases h <;> rfl

theorem spans_cons {l : Lexeme} (h : c.Spans (l :: w)) (hw : w ≠ []) :
    l = c.current.toLexeme.unnested ∧ ∃ d, c.Step d ∧ d.Spans w := by
  cases h with
  | last => exact absurd rfl hw
  | cons hs hd => exact ⟨rfl, _, hs, hd⟩

theorem spans_of_steps (h : c.Steps u d) (hd : d.Spans w) :
    c.Spans (u.map Lexeme.unnested ++ w) := by
  induction h with
  | refl => exact hd
  | cons hs _ ih => exact .cons hs (ih hd)

theorem blanks_unnested (h : Blanks u) : Blanks (u.map Lexeme.unnested) := by
  intro l hl
  obtain ⟨m, hm, rfl⟩ := List.mem_map.1 hl
  exact h m hm

theorem steps_head (h : c.Steps u d) (hd : w.head? = some d.current.toLexeme.unnested) :
    (u.map Lexeme.unnested ++ w).head? = some c.current.toLexeme.unnested := by
  cases h with
  | refl => exact hd
  | cons => rfl

theorem skips_of_spans {l : Lexeme} (h : c.Spans (u ++ l :: w)) (hu : Blanks u)
    (hl : ¬ l.isBlank) : ∃ d, c.Skips d ∧ d.Spans (l :: w) := by
  induction u generalizing c with
  | nil =>
    obtain rfl := spans_head h
    exact ⟨c, .refl hl, h⟩
  | cons b u ih =>
    obtain ⟨hb, hrest⟩ := List.forall_mem_cons.1 hu
    obtain ⟨rfl, d, hs, hd⟩ := spans_cons h (by simp)
    obtain ⟨f, ⟨⟨u', hu', hsteps⟩, hf⟩, hspans⟩ := ih hd hrest
    have hall : Blanks (c.current.toLexeme :: u') := List.forall_mem_cons.2 ⟨hb, hu'⟩
    exact ⟨f, ⟨⟨_, hall, .cons hs hsteps⟩, hf⟩, hspans⟩

end Spans

/-- What is read between two cursors is parsed from the lexemes there, whatever stands behind the
lexeme that was looked at. -/
theorem parses_of_reads {p : Part} {c d : Cursor} {e : Expr} (h : Cursor.Reads p c e d) :
    ∃ u, c.Steps u d ∧ ∀ w, w.head? = some d.current.toLexeme.unnested →
      Parses p (u.map Lexeme.unnested ++ w) e w := by
  induction h with
  | tier _ _ ihl ihc =>
    obtain ⟨u, hu, hleft⟩ := ihl
    obtain ⟨v, hv, hchain⟩ := ihc
    refine ⟨u ++ v, hu.trans hv, fun w hw => ?_⟩
    rw [List.map_append, List.append_assoc]
    exact .tier (hleft _ (steps_head hv hw)) (hchain w hw)
  | stop hs =>
    refine ⟨[], .refl _, fun w hw => ?_⟩
    obtain ⟨x, rfl⟩ := List.head?_eq_some_iff.1 hw
    exact .stop hs
  | more hk hb ht hs _ _ ihr iha =>
    obtain ⟨u, hu, hright⟩ := ihr
    obtain ⟨v, hv, hall⟩ := iha
    refine ⟨_, (Cursor.Steps.cons hs hu).trans hv, fun w hw => ?_⟩
    rw [List.map_append, List.append_assoc]
    exact .more hk hb ht (hright _ (steps_head hv hw)) (hall w hw)
  | numeral hk hl hs =>
    exact ⟨_, hs.steps, fun w _ => .numeral hk (Token.literal_eq hl rfl rfl rfl)⟩
  | string hk hs => exact ⟨_, hs.steps, fun w _ => .string hk⟩
  | constant hk hword hs => exact ⟨_, hs.steps, fun w _ => .constant hk hword⟩
  | sign hk hsign hs _ ih =>
    obtain ⟨u, hu, ho⟩ := ih
    exact ⟨_, .cons hs hu, fun w hw => .sign hk hsign (ho w hw)⟩
  | group ho _ ih =>
    obtain ⟨u, hu, he⟩ := ih
    refine ⟨u, hu, fun w hw => ?_⟩
    obtain ⟨x, hx⟩ := List.head?_eq_some_iff.1 (steps_head hu hw)
    have hd := he w hw
    rw [hx] at hd ⊢
    exact .group ho hd
  | name hk hs hn hend =>
    refine ⟨_, hs.steps, fun w hw => ?_⟩
    obtain ⟨x, rfl⟩ := List.head?_eq_some_iff.1 hw
    exact .name hk hn hend
  | assignment hk hs ho hs' _ ih =>
    obtain ⟨u, hu, he⟩ := ih
    exact ⟨_, .cons hs (.cons hs' hu), fun w hw => .assignment hk ho (he w hw)⟩
  | call hk hs ho _ ih =>
    obtain ⟨u, hu, he⟩ := ih
    refine ⟨_, .cons hs hu, fun w hw => ?_⟩
    obtain ⟨x, hx⟩ := List.head?_eq_some_iff.1 (steps_head hu hw)
    have hd := he w hw
    rw [List.map_cons, List.cons_append]
    rw [hx] at hd ⊢
    exact .call hk ho hd
  | index hk hs ho _ ih =>
    obtain ⟨u, hu, he⟩ := ih
    refine ⟨_, .cons hs hu, fun w hw => ?_⟩
    obtain ⟨x, hx⟩ := List.head?_eq_some_iff.1 (steps_head hu hw)
    have hd := he w hw
    rw [List.map_cons, List.cons_append]
    rw [hx] at hd ⊢
    exact .index hk ho hd
  | command hk hword hor hs ho _ hend ih =>
    obtain ⟨u, hu, he⟩ := ih
    refine ⟨_, .cons hs hu, fun w hw => ?_⟩
    obtain ⟨x, hx⟩ := List.head?_eq_some_iff.1 (steps_head hu hw)
    obtain ⟨y, rfl⟩ := List.head?_eq_some_iff.1 hw
    have hd := he _ hw
    rw [List.map_cons, List.cons_append]
    rw [hx] at hd ⊢
    exact .command hk hword hor ho hd hend
  | block hk hword hor hs ho _ hb _ ih ih' =>
    obtain ⟨u, hu, he⟩ := ih
    obtain ⟨v, hv, hbody⟩ := ih'
    refine ⟨_, (Cursor.Steps.cons hs hu).trans hv, fun w hw => ?_⟩
    obtain ⟨y, hy⟩ := List.head?_eq_some_iff.1 (steps_head hv hw)
    obtain ⟨x, hx⟩ := List.head?_eq_some_iff.1 (steps_head hu (steps_head hv hw))
    have hd := he _ (steps_head hv hw)
    have hd' := hbody w hw
    rw [List.map_append, List.append_assoc, List.map_cons, List.cons_append]
    rw [hx, hy] at hd
    rw [hy] at hd'
    rw [hx]
    exact .block hk hword hor ho hd hb hd'
  | blank hb hs _ ih =>
    obtain ⟨u, hu, he⟩ := ih
    exact ⟨_, .cons hs hu, fun w hw => .blank hb (he w hw)⟩
  | @delimited b c a f g i k _ hs hskip _ hskip' hclose hs' ih =>
    obtain ⟨⟨u, hu, hsteps⟩, hblank⟩ := hskip
    obtain ⟨⟨x, hx, hsteps'⟩, -⟩ := hskip'
    obtain ⟨v, hv, he⟩ := ih
    refine ⟨_, (((Cursor.Steps.cons hs hsteps).trans hv).trans hsteps').trans hs'.steps,
      fun w hw => ?_⟩
    have hlast : i.current.toLexeme.unnested = .closing b.closer 0 := by
      rw [hclose]
      rfl
    have hhead := steps_head (w := i.current.toLexeme.unnested :: w) hsteps' rfl
    obtain ⟨y, hy⟩ := List.head?_eq_some_iff.1 (steps_head hv hhead)
    have hinner := he _ hhead
    rw [hy] at hinner
    have hfirst : ¬ f.current.toLexeme.unnested.isBlank := hblank
    have hd := Parses.delimited (l := c.current.toLexeme.unnested) (blanks_unnested hu) hfirst
      hinner (blanks_unnested hx) hlast
    rw [← hy] at hd
    simpa using hd

theorem Parses.ne_nil {p : Part} {v w : List Lexeme} {e : Expr} (h : Parses p v e w)
    (hw : w ≠ []) : v ≠ [] := by
  induction h with
  | tier _ _ ihl ihc => exact ihl (ihc hw)
  | _ => nofun

theorem ofTier_ne_delimited (t : Option Tier) (b : Bracket) :
    Part.ofTier t ≠ .delimited b := by
  cases t <;> nofun

theorem at_of_reads {p : Part} {c d : Cursor} {e : Expr} {n : Nesting}
    (h : Cursor.Reads p c e d) (hc : c.At n) : ∃ n', d.At n' := by
  obtain ⟨w, hs, -⟩ := derived_of_reads h
  exact hc.steps hs

/-- Where a part of the parser ends, the chains of its tier and of the tighter ones stop. -/
def Stopped : Part → List Lexeme → List Lexeme → Prop
  | .tier t, _, w =>
    ∀ t', Cursor.rank (some t') ≤ Cursor.rank (some t) → ∀ l ∈ w.head?, t'.Stops l
  | .chain t _, v, w =>
    (∀ t', Cursor.rank (some t') ≤ Cursor.rank t.tighter → ∀ l ∈ v.head?, t'.Stops l) →
      ∀ t', Cursor.rank (some t') ≤ Cursor.rank (some t) → ∀ l ∈ w.head?, t'.Stops l
  | _, _, _ => True

theorem stopped_ofTier {t : Option Tier} {t' : Tier} {v w : List Lexeme}
    (h : Stopped (.ofTier t) v w) (ht : Cursor.rank (some t') ≤ Cursor.rank t) :
    ∀ l ∈ w.head?, t'.Stops l := by
  cases t with
  | none => cases t' <;> exact absurd ht (by decide)
  | some t => exact h t' ht

theorem Parses.stopped {p : Part} {v w : List Lexeme} {e : Expr} (h : Parses p v e w) :
    Stopped p v w := by
  induction h with
  | tier _ _ ihl ihc => exact ihc fun t' ht => stopped_ofTier ihl ht
  | @stop t l w left hs =>
    intro htighter t' ht
    have hsplit : ∀ t t', Cursor.rank (some t') ≤ Cursor.rank (some t) →
        t' = t ∨ Cursor.rank (some t') ≤ Cursor.rank t.tighter := by
      intro t t'
      cases t <;> cases t' <;> decide
    rcases hsplit t t' ht with rfl | ht
    · rintro l ⟨⟩
      exact hs
    · exact htighter t' ht
  | more _ _ _ _ _ ihr iha => exact fun _ => iha fun t' ht => stopped_ofTier ihr ht
  | _ => trivial

theorem Parses.closed {v w : List Lexeme} {e : Expr} (h : Parses (.tier .logical) v e w) :
    Closed w := by
  intro l hl hk
  have hstops (t : Tier) : t.Stops l := h.stopped t (by cases t <;> decide) l hl
  cases hb : OpKind.ofBinary? l.raw.toString with
  | none =>
    have hlogical := hstops .logical hk
    rw [hb] at hlogical
    exact hlogical rfl
  | some k =>
    obtain ⟨hmem, -⟩ := binary_of_ofBinary? hb
    obtain ⟨t, ht⟩ := exists_operators hmem
    have htier := hstops t hk
    rw [hb] at htier
    exact htier (mem_operators.1 ht).2

/-- What is parsed from the lexemes at a cursor is read there. -/
theorem reads_of_parses {p : Part} {v w : List Lexeme} {e : Expr} (h : Parses p v e w)
    {c : Cursor} {n : Nesting} (hc : c.At n) (hs : c.Spans v) (hw : w ≠ [])
    (hopen : ∀ b, p = .delimited b → c.current.isOpening b.opener) :
    ∃ d, Cursor.Reads p c e d ∧ d.Spans w := by
  induction h generalizing c n with
  | tier _ hchain ihl ihc =>
    obtain ⟨d, hleft, hd⟩ := ihl hc hs (hchain.ne_nil hw)
      fun b hb => absurd hb (ofTier_ne_delimited _ b)
    obtain ⟨n', hat⟩ := at_of_reads hleft hc
    obtain ⟨f, hall, hf⟩ := ihc hat hd hw nofun
    exact ⟨f, .tier hleft hall, hf⟩
  | stop hstop =>
    obtain rfl := spans_head hs
    exact ⟨c, .stop hstop, hs⟩
  | more hk hb ht hright hchain ihr iha =>
    obtain ⟨rfl, d, hstep, hd⟩ := spans_cons hs (hright.ne_nil (hchain.ne_nil hw))
    obtain ⟨f, hr, hf⟩ := ihr (hc.step hstep) hd (hchain.ne_nil hw)
      fun b hb => absurd hb (ofTier_ne_delimited _ b)
    obtain ⟨n', hat⟩ := at_of_reads hr (hc.step hstep)
    obtain ⟨g, ha, hg⟩ := iha hat hf hw nofun
    exact ⟨g, .more hk hb ht hstep hr ha, hg⟩
  | numeral hk hl =>
    obtain ⟨rfl, d, hstep, hd⟩ := spans_cons hs hw
    exact ⟨d, .numeral hk (Token.literal_eq hl rfl rfl rfl) hstep, hd⟩
  | string hk =>
    obtain ⟨rfl, d, hstep, hd⟩ := spans_cons hs hw
    exact ⟨d, .string hk hstep, hd⟩
  | constant hk hword =>
    obtain ⟨rfl, d, hstep, hd⟩ := spans_cons hs hw
    exact ⟨d, .constant hk hword hstep, hd⟩
  | sign hk hsign hoperand ih =>
    obtain ⟨rfl, d, hstep, hd⟩ := spans_cons hs (hoperand.ne_nil hw)
    obtain ⟨f, hr, hf⟩ := ih (hc.step hstep) hd hw nofun
    exact ⟨f, .sign hk hsign hstep hr, hf⟩
  | group ho _ ih =>
    obtain rfl := spans_head hs
    obtain ⟨d, hr, hd⟩ := ih hc hs hw (by rintro b ⟨⟩; exact ho)
    exact ⟨d, .group ho hr, hd⟩
  | name hk hn hend =>
    obtain ⟨rfl, d, hstep, hd⟩ := spans_cons hs hw
    obtain rfl := spans_head hd
    exact ⟨d, .name hk hstep hn hend, hd⟩
  | assignment hk ho hvalue ih =>
    obtain ⟨rfl, d, hstep, hd⟩ := spans_cons hs nofun
    obtain ⟨rfl, f, hstep', hf⟩ := spans_cons hd (hvalue.ne_nil hw)
    obtain ⟨g, hr, hg⟩ := ih ((hc.step hstep).step hstep') hf hw nofun
    exact ⟨g, .assignment hk hstep ho hstep' hr, hg⟩
  | call hk ho _ ih =>
    obtain ⟨rfl, d, hstep, hd⟩ := spans_cons hs nofun
    obtain rfl := spans_head hd
    obtain ⟨f, hr, hf⟩ := ih (hc.step hstep) hd hw (by rintro b ⟨⟩; exact ho)
    exact ⟨f, .call hk hstep ho hr, hf⟩
  | index hk ho _ ih =>
    obtain ⟨rfl, d, hstep, hd⟩ := spans_cons hs nofun
    obtain rfl := spans_head hd
    obtain ⟨f, hr, hf⟩ := ih (hc.step hstep) hd hw (by rintro b ⟨⟩; exact ho)
    exact ⟨f, .index hk hstep ho hr, hf⟩
  | command hk hword hor ho _ hend ih =>
    obtain ⟨rfl, d, hstep, hd⟩ := spans_cons hs nofun
    obtain rfl := spans_head hd
    obtain ⟨f, hr, hf⟩ := ih (hc.step hstep) hd hw (by rintro b ⟨⟩; exact ho)
    obtain rfl := spans_head hf
    exact ⟨f, .command hk hword hor hstep ho hr hend, hf⟩
  | block hk hword hor ho _ hb _ ih ih' =>
    obtain ⟨rfl, d, hstep, hd⟩ := spans_cons hs nofun
    obtain rfl := spans_head hd
    obtain ⟨f, hr, hf⟩ := ih (hc.step hstep) hd nofun (by rintro b ⟨⟩; exact ho)
    obtain rfl := spans_head hf
    obtain ⟨n', hat⟩ := at_of_reads hr (hc.step hstep)
    obtain ⟨g, hbody, hg⟩ := ih' hat hf hw (by rintro b ⟨⟩; exact hb)
    exact ⟨g, .block hk hword hor hstep ho hr hb hbody, hg⟩
  | blank hb hrest ih =>
    obtain ⟨rfl, d, hstep, hd⟩ := spans_cons hs (hrest.ne_nil hw)
    obtain ⟨f, hr, hf⟩ := ih (hc.step hstep) hd hw nofun
    exact ⟨f, .blank hb hstep hr, hf⟩
  | @delimited b l m y u v w x e hu hm _ hblanks hy ih =>
    obtain ⟨rfl, d, hstep, hd⟩ := spans_cons hs (by simp)
    obtain ⟨a, hskip, ha⟩ := skips_of_spans hd hu hm
    obtain ⟨⟨u', hu', hsteps⟩, -⟩ := id hskip
    obtain ⟨n', hat⟩ := (hc.step hstep).steps hsteps
    obtain ⟨f, hr, hf⟩ := ih hat ha (by simp) nofun
    have hpunct : y.kind = .punctuation := (is_of_closing hy).1
    obtain ⟨g, hskip', hg⟩ :=
      skips_of_spans hf hblanks (Cursor.not_isBlank_of_kind hpunct (by decide))
    obtain ⟨rfl, i, hstep', hi⟩ := spans_cons hg hw
    obtain ⟨⟨w', hw', hsteps'⟩, -⟩ := id hskip'
    obtain ⟨v', hread, hderived⟩ := derived_of_reads hr
    have hinner : Balanced (u' ++ v' ++ w') :=
      ((Balanced.blanks hu').append (Derives.balanced hderived)).append (.blanks hw')
    -- The depths agree, because what stands between the brackets is balanced.
    have hcloser : g.current.toLexeme.unnested.Is .punctuation (.ofChars [b.closer]) :=
      is_of_closing hy
    have hclose := (hinner.closes hc (is_of_isOpening (hopen b rfl)) hstep
      ((hsteps.trans hread).trans hsteps') hcloser).1
    exact ⟨i, .delimited hstep hskip hr hskip' hclose hstep', hi⟩

theorem parsesAll_of_readsAll {c d : Cursor} {es : List Expr} (h : c.ReadsAll es d) :
    ∃ v, c.Spans v ∧ ParsesAll v es := by
  induction h with
  | done hskip hk =>
    obtain ⟨⟨u, hu, hsteps⟩, -⟩ := hskip
    exact ⟨_, spans_of_steps hsteps (.last hk), .done (blanks_unnested hu) hk⟩
  | cons hskip hk he hend _ ih =>
    obtain ⟨⟨u, hu, hsteps⟩, hblank⟩ := hskip
    obtain ⟨w, hw, hall⟩ := ih
    obtain ⟨x, rfl⟩ := spans_eq_cons hw
    obtain ⟨v, hv, hp⟩ := parses_of_reads he
    have hparses := hp (_ :: x) rfl
    obtain ⟨y, hy⟩ := List.head?_eq_some_iff.1 (steps_head (w := _ :: x) hv rfl)
    rw [hy] at hparses
    refine ⟨_, spans_of_steps (hsteps.trans hv) hw, ?_⟩
    rw [List.map_append, List.append_assoc, hy]
    exact .cons (blanks_unnested hu) hblank hk hparses hend hall

theorem readsAll_of_parsesAll {v : List Lexeme} {es : List Expr} (h : ParsesAll v es) {c : Cursor}
    {n : Nesting} (hc : c.At n) (hs : c.Spans v) : ∃ d, c.ReadsAll es d := by
  induction h generalizing c n with
  | @done u l hu hk =>
    have hl : ¬ l.isBlank := Cursor.not_isBlank_of_kind hk (by decide)
    obtain ⟨d, hskip, hd⟩ := skips_of_spans hs hu hl
    obtain rfl := spans_head hd
    exact ⟨d, .done hskip hk⟩
  | cons hu hl hk hp hend _ ih =>
    obtain ⟨d, hskip, hd⟩ := skips_of_spans hs hu hl
    obtain rfl := spans_head hd
    obtain ⟨⟨u', -, hsteps⟩, -⟩ := id hskip
    obtain ⟨n', hat⟩ := hc.steps hsteps
    obtain ⟨f, hr, hf⟩ := reads_of_parses hp hat hd nofun nofun
    obtain rfl := spans_head hf
    obtain ⟨n'', hat'⟩ := at_of_reads hr hat
    obtain ⟨g, hall⟩ := ih hat' hf
    exact ⟨g, .cons hskip hk hr hend hall⟩

theorem steps_of_spans {c : Cursor} {w : List Lexeme} (h : c.Spans w) :
    ∃ v d, c.Steps v d ∧ d.current.kind = .eof ∧
      (v ++ [d.current.toLexeme]).map Lexeme.unnested = w := by
  induction h with
  | last hk => exact ⟨[], _, .refl _, hk, rfl⟩
  | cons hs _ ih =>
    obtain ⟨v, d, hsteps, hk, rfl⟩ := ih
    exact ⟨_, d, .cons hs hsteps, hk, rfl⟩

theorem parsesAll_of_parse {source : List Char} {p : Program} (h : Program.parse source = .ok p) :
    ∃ ls, Lexes source ls ∧ ParsesAll (ls.map Lexeme.unnested) p.exprs := by
  obtain ⟨c, d, ⟨hpeek, hnext⟩, hall⟩ := Program.parse_eq_ok.1 h
  obtain ⟨v, hv, hp⟩ := parsesAll_of_readsAll hall
  obtain ⟨w, f, hsteps, hk, rfl⟩ := steps_of_spans hv
  exact ⟨_, Scanner.run_of_steps hsteps hnext hpeek hk, hp⟩

theorem parse_of_parsesAll {source : List Char} {ls : List Lexeme} {es : List Expr}
    (hlex : Lexes source ls) (h : ParsesAll (ls.map Lexeme.unnested) es) :
    Program.parse source = .ok ⟨es⟩ := by
  obtain ⟨c, d, w, hfirst, hc, hsteps, hk, rfl⟩ := hlex.steps
  have hspans := spans_of_steps hsteps (.last hk)
  rw [List.map_append] at h
  obtain ⟨f, hall⟩ := readsAll_of_parsesAll h hc hspans
  exact Program.parse_eq_ok.2 ⟨c, f, hfirst, hall⟩

end Grammar

end Reckon
