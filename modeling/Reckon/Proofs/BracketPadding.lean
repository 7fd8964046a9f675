import Reckon.Proofs.Framing

namespace Reckon

def Lexeme.isOpener (l : Lexeme) : Bool := l.kind = .punctuation ∧ l.punct = .opening

namespace Grammar

/-- The same lexemes, but for blanks directly behind opening brackets and directly before closing
ones. To put blanks in at such places is the case in which the first word has fewer of them. -/
inductive Repadded : List Lexeme → List Lexeme → Prop where
  | nil : Repadded [] []
  | cons (l : Lexeme) {v w : List Lexeme} : Repadded v w → Repadded (l :: v) (l :: w)
  | behind {l : Lexeme} {u u' v w : List Lexeme} :
    l.isOpener → Blanks u → Blanks u' → Repadded v w → Repadded (l :: u ++ v) (l :: u' ++ w)
  | before {l : Lexeme} {u u' v w : List Lexeme} :
    Blanks u → Blanks u' → l.isClosing → Repadded v w → Repadded (u ++ l :: v) (u' ++ l :: w)

section Lexeme

variable {l : Lexeme}

theorem isOpener_of_isOpening {c : Char} (h : l.isOpening c) : l.isOpener := by
  simp only [Lexeme.isOpening, decide_eq_true_eq] at h
  simp [Lexeme.isOpener, h.1, h.2.1]

theorem not_isBlank_of_isOpener (h : l.isOpener) : ¬ l.isBlank := by
  simp only [Lexeme.isOpener, decide_eq_true_eq] at h
  exact Cursor.not_isBlank_of_kind h.1 (by decide)

theorem not_isBlank_of_isClosing (h : l.isClosing) : ¬ l.isBlank := by
  simp only [Lexeme.isClosing, decide_eq_true_eq] at h
  exact Cursor.not_isBlank_of_kind h.1 (by decide)

theorem not_isClosing_of_isOpener (h : l.isOpener) : ¬ l.isClosing := by
  simp only [Lexeme.isOpener, decide_eq_true_eq] at h
  simp [Lexeme.isClosing, h.2]

structure Plain (l : Lexeme) : Prop where
  blank : ¬ l.isBlank
  opener : ¬ l.isOpener
  closing : ¬ l.isClosing

theorem plain_of_kind {k : TokenKind} (hl : l.kind = k)
    (hk : k ≠ .eol ∧ k ≠ .comment ∧ k ≠ .punctuation) : Plain l := by
  subst hl
  refine ⟨Cursor.not_isBlank_of_kind rfl ⟨hk.1, hk.2.1⟩, ?_, ?_⟩
  · simp [Lexeme.isOpener, hk.2.2]
  · simp [Lexeme.isClosing, hk.2.2]

end Lexeme

theorem blanks_unique {u u' v v' : List Lexeme} {l l' : Lexeme} (hu : Blanks u) (hu' : Blanks u')
    (hl : ¬ l.isBlank) (hl' : ¬ l'.isBlank) (h : u ++ l :: v = u' ++ l' :: v') :
    u = u' ∧ l = l' ∧ v = v' := by
  induction u generalizing u' with
  | nil =>
    cases u' with
    | nil =>
      obtain ⟨rfl, rfl⟩ := List.cons.inj h
      exact ⟨rfl, rfl, rfl⟩
    | cons b u' =>
      obtain ⟨rfl, -⟩ := List.cons.inj h
      exact absurd (List.forall_mem_cons.1 hu').1 hl
  | cons b u ih =>
    obtain ⟨hb, hu⟩ := List.forall_mem_cons.1 hu
    cases u' with
    | nil =>
      obtain ⟨rfl, -⟩ := List.cons.inj h
      exact absurd hb hl'
    | cons b' u' =>
      obtain ⟨rfl, hsame⟩ := List.cons.inj h
      obtain ⟨rfl, hrest⟩ := ih hu (List.forall_mem_cons.1 hu').2 hsame
      exact ⟨rfl, hrest⟩

theorem blanks_split {u u' v w : List Lexeme} {l : Lexeme} (hu' : Blanks u') (hl : ¬ l.isBlank)
    (h : u ++ l :: v = u' ++ w) : ∃ x, u = u' ++ x ∧ w = x ++ l :: v := by
  rcases List.append_eq_append_iff.1 h with ⟨x, rfl, hx⟩ | ⟨x, rfl, rfl⟩
  · cases x with
    | nil => exact ⟨[], by simp, hx.symm⟩
    | cons b x =>
      obtain ⟨rfl, -⟩ := List.cons.inj hx
      exact absurd (hu' l (by simp)) hl
  · exact ⟨x, rfl, rfl⟩

namespace Repadded

variable {u v w x z : List Lexeme} {l m : Lexeme}

theorem symm (h : Repadded v w) : Repadded w v := by
  induction h with
  | nil => exact .nil
  | cons l _ ih => exact .cons l ih
  | behind hl hu hu' _ ih => exact .behind hl hu' hu ih
  | before hu hu' hl _ ih => exact .before hu' hu hl ih

theorem unnested (h : Repadded v w) :
    Repadded (v.map Lexeme.unnested) (w.map Lexeme.unnested) := by
  induction h with
  | nil => exact .nil
  | cons l _ ih => exact .cons _ ih
  | behind hl hu hu' _ ih =>
    simp only [List.map_append, List.map_cons]
    exact .behind hl (blanks_unnested hu) (blanks_unnested hu') ih
  | before hu hu' hl _ ih =>
    simp only [List.map_append, List.map_cons]
    exact .before (blanks_unnested hu) (blanks_unnested hu') hl ih

theorem eq_nil (h : Repadded [] w) : w = [] := by
  generalize hv : ([] : List Lexeme) = v at h
  cases h with
  | nil => rfl
  | cons => cases hv
  | behind => cases hv
  | before => simp at hv

theorem head (h : Repadded (l :: v) z) :
    (∃ w, z = l :: w) ∨
      (l.isBlank ∨ l.isClosing) ∧ ∃ m w, z = m :: w ∧ (m.isBlank ∨ m.isClosing) := by
  generalize hv : l :: v = y at h
  cases h with
  | nil => cases hv
  | cons m _ =>
    cases hv
    exact .inl ⟨_, rfl⟩
  | behind =>
    cases hv
    exact .inl ⟨_, rfl⟩
  | @before c u u' x w hu hu' hc =>
    refine .inr ⟨?_, ?_⟩
    · cases u with
      | nil =>
        cases hv
        exact .inr hc
      | cons b u =>
        cases hv
        exact .inl (List.forall_mem_cons.1 hu).1
    · cases u' with
      | nil => exact ⟨c, w, rfl, .inr hc⟩
      | cons b u' => exact ⟨b, _, rfl, .inl (List.forall_mem_cons.1 hu').1⟩

theorem skip (h : Repadded (u ++ m :: v) z) (hu : Blanks u) (hm : ¬ m.isBlank) :
    ∃ u' w, z = u' ++ m :: w ∧ Blanks u' ∧ Repadded (m :: v) (m :: w) := by
  induction u generalizing z with
  | nil =>
    generalize hv : [] ++ m :: v = y at h
    cases h with
    | nil => cases hv
    | cons l h =>
      cases hv
      exact ⟨[], _, rfl, List.forall_mem_nil _, .cons m h⟩
    | behind hl hu hu' h =>
      cases hv
      exact ⟨[], _, rfl, List.forall_mem_nil _, .behind hl hu hu' h⟩
    | before hu hu' hl h =>
      obtain ⟨rfl, rfl, rfl⟩ :=
        blanks_unique (List.forall_mem_nil _) hu hm (not_isBlank_of_isClosing hl) hv
      exact ⟨_, _, rfl, hu', .cons m h⟩
  | cons b u ih =>
    obtain ⟨hb, hrest⟩ := List.forall_mem_cons.1 hu
    generalize hv : b :: u ++ m :: v = y at h
    cases h with
    | nil => cases hv
    | cons l h =>
      cases hv
      obtain ⟨u', w, rfl, hu', h⟩ := ih h hrest
      exact ⟨b :: u', w, rfl, List.forall_mem_cons.2 ⟨hb, hu'⟩, h⟩
    | behind hl =>
      obtain ⟨rfl, -⟩ := List.cons.inj hv
      exact absurd hb (not_isBlank_of_isOpener hl)
    | before hu₂ hu' hl h =>
      obtain ⟨-, rfl, rfl⟩ := blanks_unique hu hu₂ hm (not_isBlank_of_isClosing hl) hv
      exact ⟨_, _, rfl, hu', .cons m h⟩

theorem opener (h : Repadded (l :: u ++ m :: v) z) (hl : l.isOpener) (hu : Blanks u)
    (hm : ¬ m.isBlank) :
    ∃ u' w, z = l :: u' ++ m :: w ∧ Blanks u' ∧ Repadded (m :: v) (m :: w) := by
  generalize hv : l :: u ++ m :: v = y at h
  cases h with
  | nil => cases hv
  | cons l h =>
    cases hv
    obtain ⟨u', w, rfl, hu', h⟩ := h.skip hu hm
    exact ⟨u', w, rfl, hu', h⟩
  | @behind _ u₂ u₂' v₂ w₂ _ hu₂ hu₂' h =>
    obtain ⟨rfl, hsplit⟩ := List.cons.inj hv
    obtain ⟨x, rfl, rfl⟩ := blanks_split hu₂ hm hsplit
    obtain ⟨-, hx⟩ := List.forall_mem_append.1 hu
    obtain ⟨u', w, rfl, hu', h⟩ := h.skip hx hm
    refine ⟨u₂' ++ u', w, by simp, List.forall_mem_append.2 ⟨hu₂', hu'⟩, h⟩
  | @before c u₂ _ _ _ hu₂ _ hc =>
    have hfirst : [] ++ l :: (u ++ m :: v) = u₂ ++ c :: _ := hv
    obtain ⟨-, rfl, -⟩ := blanks_unique (List.forall_mem_nil _) hu₂ (not_isBlank_of_isOpener hl)
      (not_isBlank_of_isClosing hc) hfirst
    exact absurd hc (not_isClosing_of_isOpener hl)

theorem tail (h : Repadded (l :: v) (l :: w)) (hb : ¬ l.isBlank) (ho : ¬ l.isOpener) :
    Repadded v w := by
  generalize hv : l :: v = y at h
  generalize hw : l :: w = z at h
  cases h with
  | nil => cases hv
  | cons m h =>
    cases hv
    cases hw
    exact h
  | behind hl =>
    cases hv
    exact absurd hl ho
  | @before c u u' v' w' hu hu' hc h =>
    have hfirst : [] ++ l :: v = u ++ c :: v' := hv
    have hfirst' : [] ++ l :: w = u' ++ c :: w' := hw
    obtain ⟨-, -, rfl⟩ := blanks_unique (List.forall_mem_nil _) hu hb
      (not_isBlank_of_isClosing hc) hfirst
    obtain ⟨-, -, rfl⟩ := blanks_unique (List.forall_mem_nil _) hu' hb
      (not_isBlank_of_isClosing hc) hfirst'
    exact h

theorem plain (h : Repadded (l :: v) z) (hl : Plain l) : ∃ w, z = l :: w ∧ Repadded v w := by
  rcases h.head with ⟨w, rfl⟩ | ⟨hb | hc, -⟩
  · exact ⟨w, rfl, h.tail hl.blank hl.opener⟩
  · exact absurd hb hl.blank
  · exact absurd hc hl.closing

theorem opened (h : Repadded (l :: v) z) {c : Char} (hl : l.isOpening c) : ∃ w, z = l :: w := by
  have hopener := isOpener_of_isOpening hl
  rcases h.head with h | ⟨hb | hc, -⟩
  · exact h
  · exact absurd hb (not_isBlank_of_isOpener hopener)
  · exact absurd hc (not_isClosing_of_isOpener hopener)

theorem applied (h : Repadded (l :: m :: v) z) (hl : Plain l) {c : Char} (hm : m.isOpening c) :
    ∃ w, z = l :: m :: w ∧ Repadded (m :: v) (m :: w) := by
  obtain ⟨z', rfl, hz'⟩ := h.plain hl
  obtain ⟨w, rfl⟩ := hz'.opened hm
  exact ⟨w, rfl, hz'⟩

theorem ends (h : Repadded (l :: v) z) :
    ∃ m w, z = m :: w ∧ (m = l ∨ EndsSequence m) := by
  rcases h.head with ⟨w, rfl⟩ | ⟨-, m, w, rfl, hb | hc⟩
  · exact ⟨l, w, rfl, .inl rfl⟩
  · exact ⟨m, w, rfl, .inr (.inl hb)⟩
  · exact ⟨m, w, rfl, .inr (.inr (.inr hc))⟩

end Repadded

def Starts (v : List Lexeme) : Prop :=
  ∃ u l w, v = u ++ l :: w ∧ Blanks u ∧ ¬ l.isBlank ∧ ¬ l.isClosing

theorem Plain.starts {l : Lexeme} (h : Plain l) (w : List Lexeme) : Starts (l :: w) :=
  ⟨[], l, w, rfl, List.forall_mem_nil _, h.blank, h.closing⟩

theorem Starts.not_closing {u v w : List Lexeme} {c : Lexeme} (h : Starts v) (hu : Blanks u)
    (hc : c.isClosing) : v ≠ u ++ c :: w := by
  intro hv
  obtain ⟨u', l, w', rfl, hu', hblank, hclosing⟩ := h
  obtain ⟨-, rfl, -⟩ := blanks_unique hu' hu hblank (not_isBlank_of_isClosing hc) hv
  exact hclosing hc

/-- Where a part of the parser has to find an operand, and where a bracket. -/
def Begins : Part → List Lexeme → Prop
  | .delimited _, v => ∀ l ∈ v.head?, l.isOpener
  | _, _ => True

theorem begins_ofTier (t : Option Tier) (v : List Lexeme) : Begins (.ofTier t) v := by
  cases t <;> trivial

theorem begins_delimited {l : Lexeme} {c : Char} (hl : l.isOpening c) (b : Bracket)
    (v : List Lexeme) : Begins (.delimited b) (l :: v) := by
  rintro _ ⟨⟩
  exact isOpener_of_isOpening hl

theorem Parses.starts {p : Part} {v w : List Lexeme} {e : Expr} (h : Parses p v e w)
    (hp : p = .factor ∨ ∃ t, p = .tier t) : Starts v := by
  induction h with
  | @tier t _ _ _ _ _ _ _ ihl _ =>
    apply ihl
    cases t with
    | logical => exact .inr ⟨_, rfl⟩
    | expression => exact .inr ⟨_, rfl⟩
    | term => exact .inl rfl
  | stop => rcases hp with hp | ⟨t, hp⟩ <;> cases hp
  | more => rcases hp with hp | ⟨t, hp⟩ <;> cases hp
  | delimited => rcases hp with hp | ⟨t, hp⟩ <;> cases hp
  | numeral hk => exact (plain_of_kind hk (by decide)).starts _
  | string hk => exact (plain_of_kind hk (by decide)).starts _
  | constant hk => exact (plain_of_kind hk (by decide)).starts _
  | sign hk => exact (plain_of_kind hk (by decide)).starts _
  | name hk => exact (plain_of_kind hk (by decide)).starts _
  | assignment hk => exact (plain_of_kind hk (by decide)).starts _
  | call hk => exact (plain_of_kind hk (by decide)).starts _
  | index hk => exact (plain_of_kind hk (by decide)).starts _
  | command hk => exact (plain_of_kind hk (by decide)).starts _
  | block hk => exact (plain_of_kind hk (by decide)).starts _
  | group ho =>
    have hl := isOpener_of_isOpening ho
    exact ⟨[], _, _, rfl, List.forall_mem_nil _, not_isBlank_of_isOpener hl,
      not_isClosing_of_isOpener hl⟩
  | blank hb _ ih =>
    obtain ⟨u, l, w, rfl, hu, hl⟩ := ih (.inr ⟨_, rfl⟩)
    exact ⟨_ :: u, l, w, rfl, List.forall_mem_cons.2 ⟨hb, hu⟩, hl⟩

theorem Repadded.blank {l : Lexeme} {v z : List Lexeme} (h : Repadded (l :: v) z)
    (hl : l.isBlank) (hv : Starts v) : ∃ w, z = l :: w ∧ Repadded v w := by
  generalize hy : l :: v = y at h
  cases h with
  | nil => cases hy
  | cons m h =>
    cases hy
    exact ⟨_, rfl, h⟩
  | behind ho =>
    cases hy
    exact absurd hl (not_isBlank_of_isOpener ho)
  | @before c u u' x w hu hu' hc =>
    cases u with
    | nil =>
      cases hy
      exact absurd hl (not_isBlank_of_isClosing hc)
    | cons b u =>
      obtain ⟨rfl, hrest⟩ := List.cons.inj hy
      exact absurd hrest (hv.not_closing (List.forall_mem_cons.1 hu).2 hc)

theorem Parses.repad {p : Part} {v x z : List Lexeme} {e : Expr} (h : Parses p v e x)
    (hz : Repadded v z) (hp : Begins p v) : ∃ y, Parses p z e y ∧ Repadded x y := by
  induction h generalizing z with
  | tier _ _ ihl ihc =>
    obtain ⟨w', hleft, hw'⟩ := ihl hz (begins_ofTier _ _)
    obtain ⟨y, hchain, hy⟩ := ihc hw' trivial
    exact ⟨y, .tier hleft hchain, hy⟩
  | @stop t l w left hs =>
    obtain ⟨m, w', rfl, hm⟩ := hz.ends
    refine ⟨_, .stop ?_, hz⟩
    rcases hm with rfl | hend
    · exact hs
    · exact hend.stops t
  | more hk hb ht _ _ ihr iha =>
    obtain ⟨v', rfl, hv'⟩ := hz.plain (plain_of_kind hk (by decide))
    obtain ⟨w', hright, hw'⟩ := ihr hv' (begins_ofTier _ _)
    obtain ⟨y, hall, hy⟩ := iha hw' trivial
    exact ⟨y, .more hk hb ht hright hall, hy⟩
  | numeral hk hl =>
    obtain ⟨w', rfl, hw'⟩ := hz.plain (plain_of_kind hk (by decide))
    exact ⟨w', .numeral hk hl, hw'⟩
  | string hk =>
    obtain ⟨w', rfl, hw'⟩ := hz.plain (plain_of_kind hk (by decide))
    exact ⟨w', .string hk, hw'⟩
  | constant hk hword =>
    obtain ⟨w', rfl, hw'⟩ := hz.plain (plain_of_kind hk (by decide))
    exact ⟨w', .constant hk hword, hw'⟩
  | sign hk hs _ ih =>
    obtain ⟨v', rfl, hv'⟩ := hz.plain (plain_of_kind hk (by decide))
    obtain ⟨y, hoperand, hy⟩ := ih hv' trivial
    exact ⟨y, .sign hk hs hoperand, hy⟩
  | group ho _ ih =>
    obtain ⟨v', rfl⟩ := hz.opened ho
    obtain ⟨y, hinner, hy⟩ := ih hz (begins_delimited ho _ _)
    exact ⟨y, .group ho hinner, hy⟩
  | name hk hn hend =>
    obtain ⟨v', rfl, hv'⟩ := hz.plain (plain_of_kind hk (by decide))
    obtain ⟨m, w', rfl, hm⟩ := hv'.ends
    refine ⟨_, ?_, hv'⟩
    rcases hm with rfl | hm
    · exact .name hk hn hend
    · exact .name hk hm.not_assigns hm.endsOperand
  | assignment hk ho _ ih =>
    obtain ⟨v', rfl, hv'⟩ := hz.plain (plain_of_kind hk (by decide))
    have hkind := Cursor.kind_of_isOperator ho
    obtain ⟨w', rfl, hw'⟩ := hv'.plain (plain_of_kind hkind (by decide))
    obtain ⟨y, hvalue, hy⟩ := ih hw' trivial
    exact ⟨y, .assignment hk ho hvalue, hy⟩
  | call hk ho _ ih =>
    obtain ⟨v', rfl, hv'⟩ := hz.applied (plain_of_kind hk (by decide)) ho
    obtain ⟨y, harg, hy⟩ := ih hv' (begins_delimited ho _ _)
    exact ⟨y, .call hk ho harg, hy⟩
  | index hk ho _ ih =>
    obtain ⟨v', rfl, hv'⟩ := hz.applied (plain_of_kind hk (by decide)) ho
    obtain ⟨y, harg, hy⟩ := ih hv' (begins_delimited ho _ _)
    exact ⟨y, .index hk ho harg, hy⟩
  | command hk hword hor ho _ hend ih =>
    obtain ⟨v', rfl, hv'⟩ := hz.applied (plain_of_kind hk (by decide)) ho
    obtain ⟨y, harg, hy⟩ := ih hv' (begins_delimited ho _ _)
    obtain ⟨n, y', rfl, hn⟩ := hy.ends
    refine ⟨_, .command hk hword hor ho harg ?_, hy⟩
    rcases hn with rfl | hn
    · exact hend
    · exact hn.endsOperand
  | block hk hword hor ho _ hb _ ih ih' =>
    obtain ⟨v', rfl, hv'⟩ := hz.applied (plain_of_kind hk (by decide)) ho
    obtain ⟨y, harg, hy⟩ := ih hv' (begins_delimited ho _ _)
    obtain ⟨y', rfl⟩ := hy.opened hb
    obtain ⟨x', hbody, hx'⟩ := ih' hy (begins_delimited hb _ _)
    exact ⟨x', .block hk hword hor ho harg hb hbody, hx'⟩
  | blank hb hrest ih =>
    obtain ⟨v', rfl, hv'⟩ := hz.blank hb (hrest.starts (.inr ⟨_, rfl⟩))
    obtain ⟨y, hexpr, hy⟩ := ih hv' trivial
    exact ⟨y, .blank hb hexpr, hy⟩
  | @delimited b l m y u v w x e hu hm _ hw hy ih =>
    obtain ⟨u', v', rfl, hu', hv'⟩ := hz.opener (hp l rfl) hu hm
    obtain ⟨x₁, hinner, hx₁⟩ := ih hv' trivial
    have hpunct : y.kind = .punctuation := (is_of_closing hy).1
    have hcloser : ¬ y.isOpener := by rw [hy]; exact Bool.false_ne_true
    have hblank : ¬ y.isBlank := Cursor.not_isBlank_of_kind hpunct (by decide)
    obtain ⟨w', x', rfl, hw', hx'⟩ := hx₁.skip hw hblank
    exact ⟨x', .delimited hu' hm hinner hw' hy, hx'.tail hblank hcloser⟩

theorem ParsesAll.not_closing {l : Lexeme} {w : List Lexeme} {es : List Expr}
    (h : ParsesAll (l :: w) es) : ¬ l.isClosing := by
  intro hl
  have hblank := not_isBlank_of_isClosing hl
  generalize hv : l :: w = v at h
  change [] ++ l :: w = v at hv
  cases h with
  | @done u m hu hk =>
    have hm : ¬ m.isBlank := Cursor.not_isBlank_of_kind hk (by decide)
    obtain ⟨-, rfl, -⟩ := blanks_unique (List.forall_mem_nil _) hu hblank hm hv
    exact (plain_of_kind hk (by decide)).closing hl
  | cons hu hm _ he =>
    obtain ⟨-, rfl, rfl⟩ := blanks_unique (List.forall_mem_nil _) hu hblank hm hv
    exact (he.starts (.inr ⟨_, rfl⟩)).not_closing (List.forall_mem_nil _) hl rfl

theorem ParsesAll.repad {v z : List Lexeme} {es : List Expr} (h : ParsesAll v es)
    (hz : Repadded v z) : ParsesAll z es := by
  induction h generalizing z with
  | @done u l hu hk =>
    have hl := plain_of_kind hk (by decide)
    obtain ⟨u', w, rfl, hu', hw⟩ := hz.skip hu hl.blank
    obtain rfl := (hw.tail hl.blank hl.opener).eq_nil
    exact .done hu' hk
  | @cons u v w l m e es hu hl hk he hend _ ih =>
    obtain ⟨u', v', rfl, hu', hv'⟩ := hz.skip hu hl
    obtain ⟨y, he', hy⟩ := he.repad hv' trivial
    have hall := ih hy
    obtain ⟨m', w', rfl, hm'⟩ := hy.ends
    refine .cons hu' hl hk he' ?_ hall
    rcases hm' with rfl | hblank | heof | hclosing
    · exact hend
    · exact endsStatement_iff.2 (.inl hblank)
    · exact endsStatement_iff.2 (.inr heof)
    · exact absurd hclosing hall.not_closing

theorem parse_of_repadded {source source' : List Char} {ls ls' : List Lexeme} {p : Program}
    (h : Lexes source ls) (h' : Lexes source' ls') (hpad : Repadded ls ls')
    (hp : Program.parse source = .ok p) : Program.parse source' = .ok p := by
  obtain ⟨ks, hks, hall⟩ := parsesAll_of_parse hp
  obtain ⟨ts, hlex, rfl⟩ := h
  obtain ⟨us, hlex', rfl⟩ := hks
  cases hlex.symm.trans hlex'
  exact parse_of_parsesAll h' (hall.repad hpad.unnested)

end Grammar

/-- Two sources whose tokens differ at most in places and in the line breaks and comments directly
behind opening brackets and directly before closing ones are parsed to the same program, or both
are refused. -/
theorem Program.parse_repadded {source source' : List Char} {ts ts' : List Token}
    (h : lex source = (ts, none)) (h' : lex source' = (ts', none))
    (hpad : Grammar.Repadded (ts.map (·.toLexeme)) (ts'.map (·.toLexeme))) (p : Program) :
    Program.parse source = .ok p ↔ Program.parse source' = .ok p := by
  constructor
  · intro hp
    exact Grammar.parse_of_repadded ⟨ts, h, rfl⟩ ⟨ts', h', rfl⟩ hpad hp
  · intro hp
    exact Grammar.parse_of_repadded ⟨ts', h', rfl⟩ ⟨ts, h, rfl⟩ hpad.symm hp

theorem Grammar.parses_delimited_name {b : Bracket} {l m : Lexeme} (hm : m.kind = .identifier)
    (w : List Lexeme) :
    Parses (.delimited b) (l :: m :: .closing b.closer 0 :: w) (.symbol m.raw.toString) w := by
  have hclosed : Closed (.closing b.closer 0 :: w) := by
    rintro _ ⟨⟩
    cases b <;> decide
  have hname : Parses .factor (m :: .closing b.closer 0 :: w) (.symbol m.raw.toString)
      (.closing b.closer 0 :: w) := by
    apply Parses.name hm
    all_goals cases b <;> decide
  have hnone : Blanks [] := List.forall_mem_nil _
  exact @Parses.delimited b l m _ [] _ [] w _ hnone (plain_of_kind hm (by decide)).blank
    (parses_logical (t := none) hclosed (List.cons_ne_nil _ _) hname) hnone rfl

/-- A condition and a block, each within brackets on lines of their own. -/
theorem Program.parse_repadded_block :
    let p : Program := ⟨[.define "if" (.symbol "a") (.symbol "b")]⟩
    Program.parse "if(a)\x7bb\x7d".toList = .ok p ∧
      Program.parse "if(\na)\x7b\n\nb\n\x7d".toList = .ok p := by
  let newline := Lexeme.plain .eol ['\n']
  have hlex : lex "if(a)\x7bb\x7d".toList = ((lex "if(a)\x7bb\x7d".toList).1, none) :=
    Prod.ext rfl (by decide +kernel)
  have hlex' : lex "if(\na)\x7b\n\nb\n\x7d".toList =
      ((lex "if(\na)\x7b\n\nb\n\x7d".toList).1, none) :=
    Prod.ext rfl (by decide +kernel)
  have hwords : (lex "if(a)\x7bb\x7d".toList).1.map (·.toLexeme) =
      [.plain .keyword ['i', 'f'], .opening '(' 0, .plain .identifier ['a'], .closing ')' 0,
        .opening '\x7b' 0, .plain .identifier ['b'], .closing '\x7d' 0, .eof] := by
    decide +kernel
  have hwords' : (lex "if(\na)\x7b\n\nb\n\x7d".toList).1.map (·.toLexeme) =
      [.plain .keyword ['i', 'f'], .opening '(' 0, newline, .plain .identifier ['a'],
        .closing ')' 0, .opening '\x7b' 0, newline, newline, .plain .identifier ['b'], newline,
        .closing '\x7d' 0, .eof] := by
    decide +kernel
  have hnone : Grammar.Blanks [] := List.forall_mem_nil _
  have hparse : Program.parse "if(a)\x7bb\x7d".toList =
      .ok ⟨[.define "if" (.symbol "a") (.symbol "b")]⟩ := by
    have hclosed : Grammar.Closed [.eof] := by
      rintro _ ⟨⟩
      decide
    have hblock := Grammar.Parses.block (l := .plain .keyword ['i', 'f']) (m := .opening '(' 0)
      (x := .opening '\x7b' 0) rfl rfl (.inr rfl) rfl
      (Grammar.parses_delimited_name (m := .plain .identifier ['a']) rfl _) rfl
      (Grammar.parses_delimited_name (m := .plain .identifier ['b']) rfl [.eof])
    refine Grammar.parse_of_parsesAll ⟨_, hlex, hwords⟩ ?_
    exact @Grammar.ParsesAll.cons [] _ _ _ _ _ _ hnone (by decide) (by decide)
      (Grammar.parses_logical (t := none) hclosed (List.cons_ne_nil _ _) hblock) rfl
      (@Grammar.ParsesAll.done [] _ hnone rfl)
  have hone : Grammar.Blanks [newline] := List.forall_mem_singleton.2 rfl
  have htwo : Grammar.Blanks [newline, newline] := List.forall_mem_cons.2 ⟨rfl, hone⟩
  have hpad : Grammar.Repadded ((lex "if(a)\x7bb\x7d".toList).1.map (·.toLexeme))
      ((lex "if(\na)\x7b\n\nb\n\x7d".toList).1.map (·.toLexeme)) := by
    rw [hwords, hwords']
    apply Grammar.Repadded.cons
    apply @Grammar.Repadded.behind _ [] [newline] _ _ rfl hnone hone
    apply Grammar.Repadded.cons
    apply Grammar.Repadded.cons
    apply @Grammar.Repadded.behind _ [] [newline, newline] _ _ rfl hnone htwo
    apply Grammar.Repadded.cons
    apply @Grammar.Repadded.before _ [] [newline] _ _ hnone hone rfl
    exact .cons _ .nil
  exact ⟨hparse, (parse_repadded hlex hlex' hpad _).1 hparse⟩

end Reckon
