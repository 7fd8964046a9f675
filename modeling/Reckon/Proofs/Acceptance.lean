import Reckon.Proofs.Grammar

namespace Reckon

namespace Grammar

/-- Reading a word leaves the open brackets as they were. -/
def Balanced (w : List Lexeme) : Prop :=
  ∀ (c d : Cursor) (n : Nesting), c.At n → c.Steps w d → d.At n

namespace Balanced

variable {l : Lexeme} {v w : List Lexeme}

theorem nil : Balanced [] := by
  intro c d n hc hs
  obtain rfl := Cursor.steps_nil.1 hs
  exact hc

theorem append (hv : Balanced v) (hw : Balanced w) : Balanced (v ++ w) := by
  intro c d n hc hs
  obtain ⟨e, hs, hs'⟩ := Cursor.steps_append.1 hs
  exact hw e d n (hv c e n hc hs) hs'

theorem cons (hl : l.kind ≠ .punctuation) (hw : Balanced w) : Balanced (l :: w) := by
  intro c d n hc hs
  obtain ⟨rfl, e, hstep, hs⟩ := Cursor.steps_cons.1 hs
  have he := hc.step hstep
  rw [hc.nests.of_plain hl] at he
  exact hw e d n he hs

theorem blanks (hw : Blanks w) : Balanced w := by
  induction w with
  | nil => exact nil
  | cons l w ih =>
    obtain ⟨hl, hw⟩ := List.forall_mem_cons.1 hw
    refine cons ?_ (ih hw)
    rcases Cursor.kind_of_isBlank hl with h | h <;> rw [h] <;> nofun

theorem closes {b : Bracket} {c d e : Cursor} {n : Nesting} (hw : Balanced w) (hc : c.At n)
    (hopen : c.current.toLexeme.Is .punctuation (.ofChars [b.opener])) (hstep : c.Step d)
    (hs : d.Steps w e) (hclose : e.current.toLexeme.Is .punctuation (.ofChars [b.closer])) :
    e.current.toLexeme = .closing b.closer c.current.depth ∧ e.lexer.scanner.nesting = n := by
  obtain ⟨hl, hn⟩ := hc.nests.of_opener hopen
  have hd := hc.step hstep
  rw [hn] at hd
  obtain ⟨depth, hdepth, hm, hn'⟩ := (hw d e _ hd hs).nests.of_closer hclose
  rw [Nesting.get_set_self, Nat.add_right_cancel_iff] at hdepth
  constructor
  · rw [hm, ← hdepth]
    exact congrArg _ (congrArg Lexeme.depth hl).symm
  · rw [hn', ← hdepth, Nesting.set_set_get]

theorem enclosed {b : Bracket} {m : Lexeme} (hl : l.Is .punctuation (.ofChars [b.opener]))
    (hw : Balanced w) (hm : m.Is .punctuation (.ofChars [b.closer])) :
    Balanced (l :: w ++ [m]) := by
  intro c d n hc hs
  obtain ⟨e, hfront, hback⟩ := Cursor.steps_append.1 hs
  obtain ⟨rfl, c', hstep, hinner⟩ := Cursor.steps_cons.1 hfront
  obtain ⟨rfl, hstep'⟩ := Cursor.steps_singleton.1 hback
  obtain ⟨_, he⟩ := (hc.step hstep).steps hinner
  have hd := he.step hstep'
  rwa [(hw.closes hc hl hstep hinner hm).2] at hd

end Balanced

theorem Derives.balanced {p : Phrase} {w : List Lexeme} {e : Expr} (h : Derives p w e) :
    Balanced w := by
  have single {l : Lexeme} {k : TokenKind} (hl : l.kind = k) (hk : k ≠ .punctuation) :
      Balanced [l] := .cons (hl ▸ hk) .nil
  induction h with
  | operand _ ih => exact ih
  | binary _ _ hl _ ihe ihf => exact ihe.append (.cons (hl.1 ▸ nofun) ihf)
  | numeral hl => exact single hl nofun
  | string hl => exact single hl nofun
  | constant hl => exact single hl.1 nofun
  | sign _ hl _ ih => exact .cons (hl.1 ▸ nofun) ih
  | group _ ih => exact ih
  | name hl => exact single hl nofun
  | assignment hl hm _ ih => exact .cons (hl ▸ nofun) (.cons (hm.1 ▸ nofun) ih)
  | call hl _ ih => exact .cons (hl ▸ nofun) ih
  | index hl _ ih => exact .cons (hl ▸ nofun) ih
  | command _ hl _ ih => exact .cons (hl.1 ▸ nofun) ih
  | block _ hl _ _ ih ih' => exact .append (.cons (hl.1 ▸ nofun) ih) ih'
  | blank hl _ ih =>
    have := Balanced.blanks (List.forall_mem_singleton.2 hl)
    exact this.append ih
  | enclosed hl hu _ hw hm ih =>
    exact .enclosed hl (((Balanced.blanks hu).append ih).append (.blanks hw)) hm

/-- An operand that starts with no sign, blank or assignment. -/
inductive Operand : List Lexeme → Prop where
  | numeral {l : Lexeme} {v : Literal} :
    l.kind = .numeric → Token.literal { toLexeme := l } = .ok v → Operand [l]
  | string {l : Lexeme} : l.kind = .string → Operand [l]
  | constant {l : Lexeme} {b : Bool} :
    l.Is .keyword (.ofString (if b then "true" else "false")) → Operand [l]
  | group {w : List Lexeme} {e : Expr} : Derives (.enclosed .round) w e → Operand w
  | name {l : Lexeme} : l.kind = .identifier → Operand [l]
  | call {l : Lexeme} {w : List Lexeme} {e : Expr} :
    l.kind = .identifier → Derives (.enclosed .round) w e → Operand (l :: w)
  | index {l : Lexeme} {w : List Lexeme} {e : Expr} :
    l.kind = .identifier → Derives (.enclosed .square) w e → Operand (l :: w)
  | command {l : Lexeme} {word : String} {w : List Lexeme} {e : Expr} :
    word = "print" ∨ word = "if" → l.Is .keyword word → Derives (.enclosed .round) w e →
    Operand (l :: w)
  | block {l : Lexeme} {word : String} {v w : List Lexeme} {e f : Expr} :
    word = "print" ∨ word = "if" → l.Is .keyword word → Derives (.enclosed .round) v e →
    Derives (.enclosed .curly) w f → Operand (l :: v ++ w)

def Joins (t : Tier) (l : Lexeme) : Prop := ∃ s k, (s, k) ∈ operators t ∧ l.Is .operator s

/-- A sequence of operands and the operators between them, whatever their tiers. -/
inductive Flat : List Lexeme → Prop where
  | last {w : List Lexeme} : Operand w → Flat w
  | binary {t : Tier} {v w : List Lexeme} {l : Lexeme} :
    Operand v → Joins t l → Flat w → Flat (v ++ l :: w)
  | sign {l : Lexeme} {w : List Lexeme} {s : String} {k : OpKind} :
    (s, k) ∈ signs → l.Is .operator s → Flat w → Flat (l :: w)
  | assignment {l m : Lexeme} {w : List Lexeme} :
    l.kind = .identifier → m.Is .operator "=" → Flat w → Flat (l :: m :: w)
  | blank {l : Lexeme} {w : List Lexeme} : l.isBlank → Flat w → Flat (l :: w)

theorem Flat.join {t : Tier} {v w : List Lexeme} {l : Lexeme} (hv : Flat v) (hl : Joins t l)
    (hw : Flat w) : Flat (v ++ l :: w) := by
  induction hv with
  | last hv => exact .binary hv hl hw
  | binary hv hl' _ ih =>
    rw [List.append_assoc]
    exact .binary hv hl' ih
  | sign hs hl' _ ih => exact .sign hs hl' ih
  | assignment hl' hm _ ih => exact .assignment hl' hm ih
  | blank hb _ ih => exact .blank hb ih

theorem Derives.flat {p : Phrase} {w : List Lexeme} {e : Expr} (h : Derives p w e)
    (hp : ∀ b, p ≠ .enclosed b) : Flat w := by
  have operand (t : Tier) (b : Bracket) : Phrase.operand t ≠ .enclosed b := by
    cases t <;> nofun
  induction h with
  | operand _ ih => exact ih (operand _)
  | binary _ hs hl _ ihe ihf => exact (ihe nofun).join ⟨_, _, hs, hl⟩ (ihf (operand _))
  | numeral hl hv => exact .last (.numeral hl hv)
  | string hl => exact .last (.string hl)
  | constant hl => exact .last (.constant hl)
  | sign hs hl _ ih => exact .sign hs hl (ih nofun)
  | group h _ => exact .last (.group h)
  | name hl => exact .last (.name hl)
  | assignment hl hm _ ih => exact .assignment hl hm (ih nofun)
  | call hl h _ => exact .last (.call hl h)
  | index hl h _ => exact .last (.index hl h)
  | command hw hl h _ => exact .last (.command hw hl h)
  | block hw hl h h' _ _ => exact .last (.block hw hl h h')
  | blank hl _ ih => exact .blank hl (ih nofun)
  | enclosed => exact absurd rfl (hp _)

theorem Derives.opener {b : Bracket} {w : List Lexeme} {e : Expr}
    (h : Derives (.enclosed b) w e) : ∃ l v, w = l :: v ∧ l.kind = .punctuation := by
  cases h with
  | enclosed hl => exact ⟨_, _, rfl, hl.1⟩

theorem Operand.head {w : List Lexeme} (h : Operand w) : ∃ l v, w = l :: v ∧ ¬ l.isBlank := by
  cases h with
  | numeral hl => exact ⟨_, _, rfl, Cursor.not_isBlank_of_kind hl (by decide)⟩
  | string hl => exact ⟨_, _, rfl, Cursor.not_isBlank_of_kind hl (by decide)⟩
  | constant hl => exact ⟨_, _, rfl, Cursor.not_isBlank_of_kind hl.1 (by decide)⟩
  | group h =>
    obtain ⟨l, v, rfl, hl⟩ := h.opener
    exact ⟨l, v, rfl, Cursor.not_isBlank_of_kind hl (by decide)⟩
  | name hl => exact ⟨_, _, rfl, Cursor.not_isBlank_of_kind hl (by decide)⟩
  | call hl => exact ⟨_, _, rfl, Cursor.not_isBlank_of_kind hl (by decide)⟩
  | index hl => exact ⟨_, _, rfl, Cursor.not_isBlank_of_kind hl (by decide)⟩
  | command _ hl => exact ⟨_, _, rfl, Cursor.not_isBlank_of_kind hl.1 (by decide)⟩
  | block _ hl => exact ⟨_, _, rfl, Cursor.not_isBlank_of_kind hl.1 (by decide)⟩

theorem Operand.length_pos {w : List Lexeme} (h : Operand w) : 0 < w.length := by
  obtain ⟨l, v, rfl, -⟩ := h.head
  exact Nat.zero_lt_succ _

theorem Flat.strip {w : List Lexeme} (h : Flat w) :
    ∃ u l v, w = u ++ l :: v ∧ Blanks u ∧ ¬ l.isBlank ∧ Flat (l :: v) := by
  induction h with
  | last hw =>
    obtain ⟨l, v, rfl, hl⟩ := hw.head
    exact ⟨[], l, v, rfl, List.forall_mem_nil _, hl, .last hw⟩
  | @binary _ _ w m hv hm hw =>
    obtain ⟨l, v, rfl, hl⟩ := hv.head
    exact ⟨[], l, v ++ m :: w, rfl, List.forall_mem_nil _, hl, .binary hv hm hw⟩
  | @sign l w _ _ hs hl hw =>
    exact ⟨[], l, w, rfl, List.forall_mem_nil _, by simp [Lexeme.isBlank, hl.1], .sign hs hl hw⟩
  | @assignment l m w hl hm hw =>
    exact ⟨[], l, m :: w, rfl, List.forall_mem_nil _, by simp [Lexeme.isBlank, hl],
      .assignment hl hm hw⟩
  | @blank b w hb _ ih =>
    obtain ⟨u, l, v, rfl, hu, hl, hv⟩ := ih
    exact ⟨b :: u, l, v, rfl, List.forall_mem_cons.2 ⟨hb, hu⟩, hl, hv⟩

def EndsSequence (l : Lexeme) : Prop := l.isBlank ∨ l.kind = .eof ∨ l.isClosing

/-- What is left behind the operands of a tier: nothing, or an operator of a looser tier. -/
def Left (t : Option Tier) (w : List Lexeme) : Prop :=
  w = [] ∨ ∃ t' l v, w = l :: v ∧ Joins t' l ∧ Cursor.rank t < Cursor.rank (some t') ∧ Flat v

/-- From a cursor to another, the parser of a tier reads a flat word up to what it leaves. -/
def Covers (t : Option Tier) (w : List Lexeme) (c d : Cursor) : Prop :=
  ∃ e m v, Cursor.Reads (.ofTier t) c e m ∧ m.Steps v d ∧ Left t v ∧ v.length < w.length

def CoversBelow (n : Nat) : Prop :=
  ∀ (t : Option Tier) (w : List Lexeme) (c d : Cursor) (k : Nesting), w.length < n → Flat w →
    c.At k → c.Steps w d → EndsSequence d.current.toLexeme → Covers t w c d

theorem Left.eq_nil {w : List Lexeme} (h : Left (some .logical) w) : w = [] := by
  rcases h with rfl | ⟨t', _, _, _, _, ht, _⟩
  · rfl
  · cases t' <;> exact absurd ht (by decide)

theorem Covers.reads {w : List Lexeme} {c d : Cursor} (h : Covers (some .logical) w c d) :
    ∃ e, Cursor.Reads (.tier .logical) c e d := by
  obtain ⟨e, m, v, hr, hs, hl, -⟩ := h
  obtain rfl := hl.eq_nil
  obtain rfl := Cursor.steps_nil.1 hs
  exact ⟨e, hr⟩

theorem isOpening_opening (a : Char) (depth : Int) : (Lexeme.opening a depth).isOpening a := by
  simp [Lexeme.isOpening, Lexeme.opening]

theorem endsSequence_of_steps {c d : Cursor} {w : List Lexeme} (hs : c.Steps w d) (hw : Blanks w)
    (hd : EndsSequence d.current.toLexeme) : EndsSequence c.current.toLexeme := by
  cases hs with
  | refl => exact hd
  | cons => exact .inl (List.forall_mem_cons.1 hw).1

theorem reads_enclosed {b : Bracket} {l m : Lexeme} {u v w : List Lexeme} {c d : Cursor}
    {n : Nesting} (hl : l.Is .punctuation (.ofChars [b.opener]))
    (hm : m.Is .punctuation (.ofChars [b.closer])) (hu : Blanks u) (hw : Blanks w)
    (hinner : Balanced (u ++ v ++ w)) (hv : ∃ l' v', v = l' :: v' ∧ ¬ l'.isBlank) (hc : c.At n)
    (hs : c.Steps (l :: u ++ v ++ w ++ [m]) d) :
    c.current.isOpening b.opener ∧ ∃ a f k, a.At k ∧ a.Steps v f ∧
      EndsSequence f.current.toLexeme ∧
      ∀ e, Cursor.Reads (.tier .logical) a e f → Cursor.Reads (.delimited b) c e d := by
  obtain ⟨g, hcg, hgd⟩ := Cursor.steps_append.1 hs
  obtain ⟨f, hcf, hfg⟩ := Cursor.steps_append.1 hcg
  obtain ⟨a, hca, haf⟩ := Cursor.steps_append.1 hcf
  obtain ⟨rfl, c', hstep, hca⟩ := Cursor.steps_cons.1 hca
  obtain ⟨rfl, hstep'⟩ := Cursor.steps_singleton.1 hgd
  obtain ⟨hmatch, -⟩ := hinner.closes hc hl hstep ((hca.trans haf).trans hfg) hm
  obtain ⟨k, ha⟩ := (hc.step hstep).steps hca
  obtain ⟨l', v', rfl, hfirst⟩ := hv
  rw [← (Cursor.steps_cons.1 haf).1] at hfirst
  have hlast : ¬ g.current.isBlank := Cursor.not_isBlank_of_kind hm.1 (by decide)
  have hends : EndsSequence f.current.toLexeme := by
    refine endsSequence_of_steps hfg hw (.inr (.inr ?_))
    rw [hmatch]
    simp [Lexeme.isClosing, Lexeme.closing]
  have hopen : c.current.isOpening b.opener := by
    rw [(hc.nests.of_opener hl).1]
    exact isOpening_opening _ _
  refine ⟨hopen, a, f, k, ha, haf, hends, fun e he => ?_⟩
  exact .delimited hstep ⟨⟨u, hu, hca⟩, hfirst⟩ he ⟨⟨w, hw, hfg⟩, hlast⟩ hmatch hstep'

theorem CoversBelow.delimited {n : Nat} (ih : CoversBelow n) {b : Bracket} {w : List Lexeme}
    {e : Expr} {c d : Cursor} {k : Nesting} (h : Derives (.enclosed b) w e) (hn : w.length ≤ n)
    (hc : c.At k) (hs : c.Steps w d) :
    c.current.isOpening b.opener ∧ ∃ e', Cursor.Reads (.delimited b) c e' d := by
  cases h with
  | @enclosed _ l m u v w _ hl hu he hw hm =>
  have hinner := ((Balanced.blanks hu).append he.balanced).append (.blanks hw)
  obtain ⟨u', l', v', rfl, hu', hl', hv'⟩ := (he.flat nofun).strip
  have hlt : (l' :: v').length < n := by
    simp only [List.length_append, List.length_cons] at hn ⊢
    omega
  rw [← List.append_assoc] at hs hinner
  obtain ⟨hopen, a, f, _, ha, haf, hends, hread⟩ := reads_enclosed hl hm
    (List.forall_mem_append.2 ⟨hu, hu'⟩) hw hinner ⟨l', v', rfl, hl'⟩ hc hs
  obtain ⟨e', he'⟩ := (ih (some .logical) _ a f _ hlt hv' ha haf hends).reads
  exact ⟨hopen, e', hread e' he'⟩

theorem CoversBelow.operand {n : Nat} (ih : CoversBelow n) {w : List Lexeme} {c d : Cursor}
    {k : Nesting} (h : Operand w) (hn : w.length ≤ n) (hc : c.At k) (hs : c.Steps w d)
    (hd : Cursor.endsOperand d.current.toLexeme) (hd' : ¬ d.current.isOperator "=") :
    ∃ e, Cursor.Reads .factor c e d := by
  cases h with
  | numeral hl hv =>
    obtain ⟨rfl, hstep⟩ := Cursor.steps_singleton.1 hs
    exact ⟨_, .numeral hl (literal_congr hv rfl) hstep⟩
  | string hl =>
    obtain ⟨rfl, hstep⟩ := Cursor.steps_singleton.1 hs
    exact ⟨_, .string hl hstep⟩
  | constant hl =>
    obtain ⟨rfl, hstep⟩ := Cursor.steps_singleton.1 hs
    exact ⟨_, .constant hl.1 hl.toString_raw hstep⟩
  | group h =>
    obtain ⟨ho, e', he'⟩ := ih.delimited h hn hc hs
    exact ⟨e', .group ho he'⟩
  | name hl =>
    obtain ⟨rfl, hstep⟩ := Cursor.steps_singleton.1 hs
    exact ⟨_, .name hl hstep hd' hd⟩
  | call hl h =>
    obtain ⟨rfl, d', hstep, hs'⟩ := Cursor.steps_cons.1 hs
    obtain ⟨ho, e', he'⟩ := ih.delimited h (Nat.le_of_succ_le hn) (hc.step hstep) hs'
    exact ⟨_, .call hl hstep ho he'⟩
  | index hl h =>
    obtain ⟨rfl, d', hstep, hs'⟩ := Cursor.steps_cons.1 hs
    obtain ⟨ho, e', he'⟩ := ih.delimited h (Nat.le_of_succ_le hn) (hc.step hstep) hs'
    exact ⟨_, .index hl hstep ho he'⟩
  | command hw hl h =>
    obtain ⟨rfl, d', hstep, hs'⟩ := Cursor.steps_cons.1 hs
    obtain ⟨ho, e', he'⟩ := ih.delimited h (Nat.le_of_succ_le hn) (hc.step hstep) hs'
    exact ⟨_, .command hl.1 hl.toString_raw hw hstep ho he' hd⟩
  | block hw hl h h' =>
    obtain ⟨m, hcm, hmd⟩ := Cursor.steps_append.1 hs
    obtain ⟨rfl, c', hstep, hs'⟩ := Cursor.steps_cons.1 hcm
    simp only [List.length_append, List.length_cons] at hn
    obtain ⟨ho, e', he'⟩ := ih.delimited h (by omega) (hc.step hstep) hs'
    have hm := h.balanced _ _ _ (hc.step hstep) hs'
    obtain ⟨ho', f', hf'⟩ := ih.delimited h' (by omega) hm hmd
    exact ⟨_, .block hl.1 hl.toString_raw hw hstep ho he' ho' hf'⟩

theorem EndsSequence.kind_ne {l : Lexeme} (h : EndsSequence l) : l.kind ≠ .operator := by
  intro hk
  simp [EndsSequence, Lexeme.isBlank, Lexeme.isClosing, hk] at h

theorem EndsSequence.stops {l : Lexeme} (h : EndsSequence l) (t : Tier) : t.Stops l :=
  fun hk => absurd hk h.kind_ne

theorem Joins.stops {t t' : Tier} {l : Lexeme} (h : Joins t l) (ht : t ≠ t') : t'.Stops l := by
  obtain ⟨s, k, hs, hl⟩ := h
  obtain ⟨hb, hk⟩ := mem_operators.1 hs
  rw [← hl.toString_raw] at hb
  refine .of_some hb ?_
  rw [hk]
  exact fun h => ht (Option.some.inj h)

theorem rank_lt {t t' : Tier} : Cursor.rank t.tighter < Cursor.rank (some t') → t' ≠ t →
    Cursor.rank (some t) < Cursor.rank (some t') := by
  cases t <;> cases t' <;> decide

theorem CoversBelow.chain {n : Nat} (ih : CoversBelow n) {t : Tier} {left : Expr} {v : List Lexeme}
    {m d : Cursor} {k : Nesting} (hm : m.At k) (hs : m.Steps v d)
    (hd : EndsSequence d.current.toLexeme) (hv : Left t.tighter v) (hn : v.length < n) :
    ∃ e m' v', Cursor.Reads (.chain t left) m e m' ∧ m'.Steps v' d ∧ Left (some t) v' ∧
      v'.length ≤ v.length := by
  induction hlen : v.length using Nat.strongRecOn generalizing left v m k with
  | ind len ihv =>
  rcases hv with rfl | ⟨t', l, y, rfl, ⟨s, o, hso, hl⟩, hrank, hy⟩
  · obtain rfl := Cursor.steps_nil.1 hs
    exact ⟨left, m, [], .stop (hd.stops t), .refl m, .inl rfl, Nat.zero_le _⟩
  · obtain ⟨rfl, m₁, hstep, hs₁⟩ := Cursor.steps_cons.1 hs
    obtain ⟨hb, ht⟩ := mem_operators.1 hso
    have hraw : OpKind.ofBinary? m.current.raw.toString = some o := by
      rw [hl.toString_raw]
      exact hb
    by_cases htt : t' = t
    · subst htt
      obtain ⟨right, m₂, v₂, hright, hs₂, hv₂, hlt⟩ :=
        ih t'.tighter y m₁ d _ (Nat.lt_of_succ_lt hn) hy (hm.step hstep) hs₁ hd
      obtain ⟨u, hu, -⟩ := derived_of_reads hright
      obtain ⟨_, hm₂⟩ := (hm.step hstep).steps hu
      rw [List.length_cons] at hn hlen
      obtain ⟨all, m₃, v₃, hall, hs₃, hv₃, hle⟩ :=
        ihv v₂.length (by omega) hm₂ hs₂ hv₂ (by omega) rfl
      exact ⟨all, m₃, v₃, .more hl.1 hraw ht hstep hright hall, hs₃, hv₃, by omega⟩
    · have hjoins : Joins t' m.current.toLexeme := ⟨s, o, hso, hl⟩
      exact ⟨left, m, _, .stop (hjoins.stops htt), hs,
        .inr ⟨t', _, y, rfl, hjoins, rank_lt hrank htt, hy⟩, Nat.le_of_eq hlen⟩

theorem EndsSequence.endsOperand {l : Lexeme} (h : EndsSequence l) : Cursor.endsOperand l := by
  rcases h with h | h | h
  · rcases Cursor.kind_of_isBlank h with h | h <;> simp [Cursor.endsOperand, h]
  · simp [Cursor.endsOperand, h]
  · simp [Cursor.endsOperand, h]

theorem EndsSequence.not_assigns {l : Lexeme} (h : EndsSequence l) : ¬ l.isOperator "=" :=
  fun ha => h.kind_ne (Cursor.kind_of_isOperator ha)

theorem Joins.endsOperand {t : Tier} {l : Lexeme} (h : Joins t l) : Cursor.endsOperand l := by
  obtain ⟨_, _, _, hl⟩ := h
  simp [Cursor.endsOperand, hl.1]

theorem Joins.not_assigns {t : Tier} {l : Lexeme} (h : Joins t l) : ¬ l.isOperator "=" := by
  obtain ⟨s, k, hs, hl⟩ := h
  intro ha
  have heq : s = "=" := by
    rw [← hl.toString_raw, (is_of_isOperator ha).toString_raw]
  have hne : ∀ t, ∀ p ∈ operators t, p.1 ≠ "=" := by
    intro t
    cases t <;> decide
  exact hne t _ hs heq

theorem CoversBelow.factor {n : Nat} (ih : CoversBelow n) {w : List Lexeme}
    {c d : Cursor} {k : Nesting} (hw : Flat w) (hn : w.length ≤ n) (hc : c.At k)
    (hs : c.Steps w d) (hd : EndsSequence d.current.toLexeme) : Covers none w c d := by
  cases hw with
  | last hw =>
    obtain ⟨e, he⟩ := ih.operand hw hn hc hs hd.endsOperand hd.not_assigns
    exact ⟨e, d, [], he, .refl d, .inl rfl, hw.length_pos⟩
  | @binary t v w l hv hl hw =>
    obtain ⟨m, hcm, hmd⟩ := Cursor.steps_append.1 hs
    obtain ⟨rfl, m', hstep, hs'⟩ := Cursor.steps_cons.1 hmd
    have hpos := hv.length_pos
    simp only [List.length_append, List.length_cons] at hn
    obtain ⟨e, he⟩ := ih.operand hv (by omega) hc hcm hl.endsOperand hl.not_assigns
    refine ⟨e, m, _, he, hmd, .inr ⟨t, _, w, rfl, hl, by cases t <;> decide, hw⟩, ?_⟩
    simp only [List.length_append, List.length_cons]
    omega
  | sign hsign hl hw =>
    obtain ⟨rfl, c', hstep, hs'⟩ := Cursor.steps_cons.1 hs
    obtain ⟨e, m, v, hr, hm, hv, hlt⟩ := ih none _ c' d _ hn hw (hc.step hstep) hs' hd
    have hk : OpKind.ofSign? c.current.raw.toString = some _ :=
      hl.toString_raw ▸ mem_signs.1 hsign
    exact ⟨_, m, v, .sign hl.1 hk hstep hr, hm, hv, Nat.lt_succ_of_lt hlt⟩
  | assignment hl hm hw =>
    obtain ⟨rfl, c', hstep, hs'⟩ := Cursor.steps_cons.1 hs
    obtain ⟨rfl, c'', hstep', hs''⟩ := Cursor.steps_cons.1 hs'
    have hc'' := (hc.step hstep).step hstep'
    obtain ⟨e, he⟩ := (ih (some .logical) _ c'' d _ (Nat.le_of_succ_le hn) hw hc'' hs'' hd).reads
    have ho : c'.current.isOperator "=" := by simp [Lexeme.isOperator, hm.1, hm.2]
    exact ⟨_, d, [], .assignment hl hstep ho hstep' he, .refl d, .inl rfl, Nat.zero_lt_succ _⟩
  | blank hb hw =>
    obtain ⟨rfl, c', hstep, hs'⟩ := Cursor.steps_cons.1 hs
    obtain ⟨e, he⟩ := (ih (some .logical) _ c' d _ hn hw (hc.step hstep) hs' hd).reads
    exact ⟨e, d, [], .blank hb hstep he, .refl d, .inl rfl, Nat.zero_lt_succ _⟩

theorem CoversBelow.tier {n : Nat} (ih : CoversBelow n) {t : Tier} {w : List Lexeme}
    {c d : Cursor} {k : Nesting} (h : Covers t.tighter w c d) (hn : w.length ≤ n) (hc : c.At k)
    (hd : EndsSequence d.current.toLexeme) : Covers (some t) w c d := by
  obtain ⟨left, m, v, hleft, hs, hv, hlt⟩ := h
  obtain ⟨u, hu, -⟩ := derived_of_reads hleft
  obtain ⟨_, hm⟩ := hc.steps hu
  obtain ⟨e, m', v', hchain, hs', hv', hle⟩ := ih.chain hm hs hd hv (Nat.lt_of_lt_of_le hlt hn)
  exact ⟨e, m', v', .tier hleft hchain, hs', hv', Nat.lt_of_le_of_lt hle hlt⟩

theorem coversBelow (n : Nat) : CoversBelow n := by
  induction n with
  | zero => exact fun _ _ _ _ _ hlt => absurd hlt (Nat.not_lt_zero _)
  | succ n ih =>
    intro t w c d k hlt hw hc hs hd
    have hn : w.length ≤ n := Nat.le_of_lt_succ hlt
    have factor : Covers none w c d := ih.factor hw hn hc hs hd
    have term : Covers (some .term) w c d := ih.tier factor hn hc hd
    have expression : Covers (some .expression) w c d := ih.tier term hn hc hd
    match t with
    | none => exact factor
    | some .term => exact term
    | some .expression => exact expression
    | some .logical => exact ih.tier expression hn hc hd

theorem Flat.reads {w : List Lexeme} {c d : Cursor} {k : Nesting} (h : Flat w) (hc : c.At k)
    (hs : c.Steps w d) (hd : EndsSequence d.current.toLexeme) :
    ∃ e, Cursor.Reads (.tier .logical) c e d :=
  (coversBelow _ _ _ c d k (Nat.lt_succ_self _) h hc hs hd).reads

theorem endsStatement_iff {l : Lexeme} : endsStatement l ↔ l.isBlank ∨ l.kind = .eof := by
  simp [endsStatement, Lexeme.isBlank, or_assoc]

theorem Derives.readsAll {u v : List Lexeme} {e : Expr} {c d f : Cursor} {k : Nesting}
    {es : List Expr} (h : Derives (.tier .logical) v e) (hu : Blanks u) (hc : c.At k)
    (hs : c.Steps (u ++ v) f) (hf : endsStatement f.current.toLexeme) (hall : f.ReadsAll es d) :
    ∃ es', c.ReadsAll es' d := by
  obtain ⟨u', l, v', rfl, hu', hl, hv'⟩ := (h.flat nofun).strip
  rw [← List.append_assoc] at hs
  obtain ⟨a, hca, haf⟩ := Cursor.steps_append.1 hs
  have hblanks : Blanks (u ++ u') := List.forall_mem_append.2 ⟨hu, hu'⟩
  have ha := Balanced.blanks hblanks _ _ _ hc hca
  have hends : EndsSequence f.current.toLexeme := by
    rcases endsStatement_iff.1 hf with h | h
    · exact .inl h
    · exact .inr (.inl h)
  obtain ⟨e', he'⟩ := hv'.reads ha haf hends
  obtain ⟨rfl, a', hstep, -⟩ := Cursor.steps_cons.1 haf
  exact ⟨e' :: es, .cons ⟨⟨_, hblanks, hca⟩, hl⟩ hstep.1 he' hf hall⟩

theorem DerivesAll.readsAll {u v w : List Lexeme} {es : List Expr} {c d : Cursor} {k : Nesting}
    (h : DerivesAll v es) (hu : Blanks u) (hw : Blanks w) (hc : c.At k)
    (hs : c.Steps (u ++ v ++ w) d) (hd : d.current.kind = .eof) : ∃ es', c.ReadsAll es' d := by
  have hblank : ¬ d.current.isBlank := by simp [Lexeme.isBlank, hd]
  induction h generalizing u c k with
  | one he =>
    obtain ⟨f, hcf, hfd⟩ := Cursor.steps_append.1 hs
    have hf : endsStatement f.current.toLexeme := by
      cases hfd with
      | refl => exact endsStatement_iff.2 (.inr hd)
      | cons => exact endsStatement_iff.2 (.inl (List.forall_mem_cons.1 hw).1)
    exact he.readsAll hu hc hcf hf (.done ⟨⟨w, hw, hfd⟩, hblank⟩ hd)
  | @cons x y z l e es he hl hy hz ih =>
    have hsplit : u ++ (x ++ l :: y ++ z) ++ w = (u ++ x) ++ ((l :: y) ++ z ++ w) := by simp
    rw [hsplit] at hs
    obtain ⟨f, hcf, hfd⟩ := Cursor.steps_append.1 hs
    obtain ⟨n, hfn⟩ := hc.steps hcf
    obtain ⟨es', hall⟩ := ih (List.forall_mem_cons.2 ⟨hl, hy⟩) hfn hfd
    have hf : endsStatement f.current.toLexeme := by
      rw [(Cursor.steps_cons.1 hfd).1]
      exact endsStatement_iff.2 (.inl hl)
    exact he.readsAll hu hc hcf hf hall

theorem Lexes.steps {source : List Char} {ls : List Lexeme} (h : Lexes source ls) :
    ∃ c d w, Cursor.First source c ∧ c.At {} ∧ c.Steps w d ∧ d.current.kind = .eof ∧
      ls = w ++ [d.current.toLexeme] := by
  obtain ⟨ts, hrun, rfl⟩ := h
  obtain ⟨t, s, w, d, hnext, hsteps, hd, hts⟩ := Scanner.steps_of_run hrun
  exact ⟨⟨t, { scanner := s }⟩, d, w, ⟨rfl, hnext⟩, ⟨rfl, Scanner.next_nests hnext⟩, hsteps, hd,
    hts⟩

theorem parse_of_derivesProgram {source : List Char} {ls : List Lexeme} {es : List Expr}
    (hlex : Lexes source ls) (h : DerivesProgram ls es) : ∃ p, Program.parse source = .ok p := by
  obtain ⟨c, d, w, hfirst, hc, hsteps, hd, hw⟩ := hlex.steps
  have hread : ∃ es', c.ReadsAll es' d := by
    cases h with
    | empty hu =>
      obtain ⟨rfl, -⟩ := List.append_inj' hw rfl
      exact ⟨[], .done ⟨⟨_, hu, hsteps⟩, by simp [Lexeme.isBlank, hd]⟩ hd⟩
    | statements hu hall hv =>
      obtain ⟨rfl, -⟩ := List.append_inj' hw rfl
      exact hall.readsAll hu hv hc hsteps hd
  obtain ⟨es', hread⟩ := hread
  exact ⟨⟨es'⟩, Program.parse_eq_ok.2 ⟨c, d, hfirst, hread⟩⟩

end Grammar

/-- The parser accepts exactly the programs of the grammar, and returns the trees of a
derivation. -/
theorem Program.parse_accepts_grammar (source : List Char) :
    ((∃ p, Program.parse source = .ok p) ↔
      (lex source).2 = none ∧ ∃ es, Grammar.DerivesProgram ((lex source).1.map (·.toLexeme)) es) ∧
    ∀ p, Program.parse source = .ok p →
      Grammar.DerivesProgram ((lex source).1.map (·.toLexeme)) p.exprs := by
  have sound (p : Program) (h : Program.parse source = .ok p) :
      (lex source).2 = none ∧ Grammar.DerivesProgram ((lex source).1.map (·.toLexeme)) p.exprs := by
    obtain ⟨ls, ⟨ts, hts, rfl⟩, hd⟩ := Grammar.derivesProgram_of_parse h
    rw [hts]
    exact ⟨rfl, hd⟩
  refine ⟨⟨?_, ?_⟩, fun p h => (sound p h).2⟩
  · rintro ⟨p, h⟩
    exact ⟨(sound p h).1, p.exprs, (sound p h).2⟩
  · rintro ⟨hnone, es, h⟩
    exact Grammar.parse_of_derivesProgram ⟨_, Prod.ext rfl hnone, rfl⟩ h

/-- An assignment goes on behind a line break. -/
theorem Program.parse_accepts_grammar_assignment :
    ∃ p, Program.parse "a =\n1".toList = .ok p ∧
      Grammar.DerivesProgram ((lex "a =\n1".toList).1.map (·.toLexeme)) p.exprs := by
  have one : Grammar.Derives (.tier .logical) [.numeral ['1'] false] (.literal (.integer 1)) :=
    .operand (.operand (.operand (.numeral rfl rfl)))
  have value : Grammar.Derives (.tier .logical) [.plain .eol ['\n'], .numeral ['1'] false]
      (.literal (.integer 1)) := .operand (.operand (.operand (.blank rfl one)))
  have assigned : Grammar.Derives (.tier .logical)
      [.plain .identifier ['a'], .plain .operator ['='], .plain .eol ['\n'], .numeral ['1'] false]
      (.binary .assignment (.symbol "a") (.literal (.integer 1))) :=
    .operand (.operand (.operand (.assignment rfl ⟨rfl, rfl⟩ value)))
  have program := Grammar.DerivesProgram.statements (u := []) (w := []) (l := .eof) nofun
    (.one assigned) nofun rfl
  have hlex : (lex "a =\n1".toList).2 = none ∧ (lex "a =\n1".toList).1.map (·.toLexeme) =
      [.plain .identifier ['a'], .plain .operator ['='], .plain .eol ['\n'], .numeral ['1'] false,
        .eof] := by decide +kernel
  obtain ⟨p, hp⟩ := (parse_accepts_grammar _).1.2 ⟨hlex.1, _, by rw [hlex.2]; exact program⟩
  exact ⟨p, hp, (parse_accepts_grammar _).2 p hp⟩

end Reckon
