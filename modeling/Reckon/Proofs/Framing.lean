import Reckon.Proofs.Words

namespace Reckon

def Lexeme.endsValue (l : Lexeme) : Bool :=
  l.kind = .numeric ∨ l.kind = .string ∨ l.kind = .identifier ∨ l.kind = .keyword ∨ l.isClosing

namespace Grammar

def Ended (w : List Lexeme) : Prop := ∃ v l, w = v ++ [l] ∧ l.endsValue

theorem not_endsValue_of_kind {l : Lexeme} {k : TokenKind} (hl : l.kind = k)
    (hk : k = .operator ∨ k = .eol ∨ k = .comment) : ¬ l.endsValue := by
  rcases hk with rfl | rfl | rfl <;> simp [Lexeme.endsValue, Lexeme.isClosing, hl]

theorem not_endsValue_of_isOpening {l : Lexeme} {a : Char} (h : l.isOpening a) :
    ¬ l.endsValue := by
  simp only [Lexeme.isOpening, decide_eq_true_eq] at h
  simp [Lexeme.endsValue, Lexeme.isClosing, h.1, h.2.1]

theorem not_endsValue_of_isBlank {l : Lexeme} (h : l.isBlank) : ¬ l.endsValue := by
  simp only [Lexeme.isBlank, decide_eq_true_eq] at h
  exact not_endsValue_of_kind rfl (.inr h)

theorem Ended.append {w : List Lexeme} (h : Ended w) (v : List Lexeme) : Ended (v ++ w) := by
  obtain ⟨w, l, rfl, hl⟩ := h
  exact ⟨v ++ w, l, by rw [List.append_assoc], hl⟩

theorem Ended.cons {w : List Lexeme} (h : Ended w) (l : Lexeme) : Ended (l :: w) := h.append [l]

theorem ended_single {l : Lexeme} (h : l.endsValue) : Ended [l] := ⟨[], l, rfl, h⟩

theorem Ended.ne_nil {w : List Lexeme} (h : Ended w) : w ≠ [] := by
  obtain ⟨v, l, rfl, -⟩ := h
  simp

theorem Ended.getLast? {w : List Lexeme} (h : Ended w) :
    ∀ l ∈ w.getLast?, l.endsValue := by
  obtain ⟨v, l, rfl, hl⟩ := h
  intro m hm
  rw [List.getLast?_append] at hm
  cases hm
  exact hl

def Taken : Part → List Lexeme → Prop
  | .chain _ _, w => w = [] ∨ Ended w
  | _, w => Ended w

theorem taken_ofTier {t : Option Tier} {w : List Lexeme} (h : Taken (.ofTier t) w) : Ended w := by
  cases t with
  | none => exact h
  | some t => exact h

/-- What a part leaves may be replaced by lexemes that begin alike, or that end every sequence. -/
inductive Fits : List Lexeme → List Lexeme → Prop where
  | same {l : Lexeme} {w x : List Lexeme} : Fits (l :: w) (l :: x)
  | ends {l : Lexeme} {w x : List Lexeme} : EndsSequence l → Fits w (l :: x)

theorem Fits.append {w x : List Lexeme} (h : Fits w x) (u : List Lexeme) :
    Fits (u ++ w) (u ++ x) := by
  cases u with
  | nil => exact h
  | cons => exact .same

/-- Of what a part leaves, it looks at the first lexeme only, and goes no further before lexemes
that end every sequence. -/
theorem Parses.frame {p : Part} {v w : List Lexeme} {e : Expr} (h : Parses p v e w) :
    ∃ c, v = c ++ w ∧ Taken p c ∧ ∀ x, Fits w x → Parses p (c ++ x) e x := by
  have value {l : Lexeme} {k : TokenKind} (hl : l.kind = k)
      (hk : k = .numeric ∨ k = .string ∨ k = .identifier ∨ k = .keyword) : Ended [l] := by
    apply ended_single
    rcases hk with rfl | rfl | rfl | rfl <;> simp [Lexeme.endsValue, hl]
  induction h with
  | tier _ _ ihl ihc =>
    obtain ⟨c, rfl, hc, hleft⟩ := ihl
    obtain ⟨d, rfl, hd, hchain⟩ := ihc
    refine ⟨c ++ d, by rw [List.append_assoc], ?_, fun x hx => ?_⟩
    · rcases hd with rfl | hd
      · rw [List.append_nil]
        exact taken_ofTier hc
      · exact hd.append c
    · rw [List.append_assoc]
      exact .tier (hleft _ (hx.append d)) (hchain x hx)
  | @stop t l w left hs =>
    refine ⟨[], rfl, .inl rfl, fun x hx => ?_⟩
    cases hx with
    | same => exact .stop hs
    | ends hend => exact .stop (hend.stops t)
  | @more t l v w x k left right all hk hb ht _ _ ihr iha =>
    obtain ⟨c, rfl, hc, hright⟩ := ihr
    obtain ⟨d, rfl, hd, hall⟩ := iha
    refine ⟨l :: c ++ d, by simp, .inr ?_, fun x hx => ?_⟩
    · rcases hd with rfl | hd
      · rw [List.append_nil]
        exact (taken_ofTier hc).cons l
      · exact hd.append (l :: c)
    · rw [List.append_assoc]
      exact .more hk hb ht (hright _ (hx.append d)) (hall x hx)
  | @numeral l w v hk hl => exact ⟨[l], rfl, value hk (.inl rfl), fun x _ => .numeral hk hl⟩
  | @string l w hk => exact ⟨[l], rfl, value hk (.inr (.inl rfl)), fun x _ => .string hk⟩
  | @constant l w b hk hw =>
    exact ⟨[l], rfl, value hk (.inr (.inr (.inr rfl))), fun x _ => .constant hk hw⟩
  | @sign l v w k e hk hs _ ih =>
    obtain ⟨c, rfl, hc, hp⟩ := ih
    exact ⟨l :: c, rfl, hc.cons l, fun x hx => .sign hk hs (hp x hx)⟩
  | @group l v w e ho _ ih =>
    obtain ⟨c, hsplit, hc, hp⟩ := ih
    obtain ⟨m, c, rfl⟩ := List.exists_cons_of_ne_nil hc.ne_nil
    obtain ⟨rfl, rfl⟩ := List.cons.inj hsplit
    exact ⟨l :: c, rfl, hc, fun x hx => .group ho (hp x hx)⟩
  | @name l m w hk hn he =>
    refine ⟨[l], rfl, value hk (.inr (.inr (.inl rfl))), fun x hx => ?_⟩
    cases hx with
    | same => exact .name hk hn he
    | ends hend => exact .name hk hend.not_assigns hend.endsOperand
  | @assignment l m v w e hk ho _ ih =>
    obtain ⟨c, rfl, hc, hp⟩ := ih
    exact ⟨l :: m :: c, rfl, Ended.cons (Ended.cons hc m) l,
      fun x hx => .assignment hk ho (hp x hx)⟩
  | @call l m v w e hk ho _ ih =>
    obtain ⟨c, hsplit, hc, hp⟩ := ih
    obtain ⟨m', c, rfl⟩ := List.exists_cons_of_ne_nil hc.ne_nil
    obtain ⟨rfl, rfl⟩ := List.cons.inj hsplit
    exact ⟨l :: m :: c, rfl, hc.cons l, fun x hx => .call hk ho (hp x hx)⟩
  | @index l m v w e hk ho _ ih =>
    obtain ⟨c, hsplit, hc, hp⟩ := ih
    obtain ⟨m', c, rfl⟩ := List.exists_cons_of_ne_nil hc.ne_nil
    obtain ⟨rfl, rfl⟩ := List.cons.inj hsplit
    exact ⟨l :: m :: c, rfl, hc.cons l, fun x hx => .index hk ho (hp x hx)⟩
  | @command l m y v w word e hk hw hor ho _ hend ih =>
    obtain ⟨c, hsplit, hc, hp⟩ := ih
    obtain ⟨m', c, rfl⟩ := List.exists_cons_of_ne_nil hc.ne_nil
    obtain ⟨rfl, rfl⟩ := List.cons.inj hsplit
    refine ⟨l :: m :: c, rfl, hc.cons l, fun x hx => ?_⟩
    cases hx with
    | same => exact .command hk hw hor ho (hp _ .same) hend
    | ends hend' => exact .command hk hw hor ho (hp _ (.ends hend')) hend'.endsOperand
  | @block l m y v w z word e f hk hw hor ho _ hb _ ih ih' =>
    obtain ⟨c, hsplit, hc, hp⟩ := ih
    obtain ⟨d, hsplit', hd, hp'⟩ := ih'
    obtain ⟨m', c, rfl⟩ := List.exists_cons_of_ne_nil hc.ne_nil
    obtain ⟨y', d, rfl⟩ := List.exists_cons_of_ne_nil hd.ne_nil
    obtain ⟨rfl, rfl⟩ := List.cons.inj hsplit
    obtain ⟨rfl, rfl⟩ := List.cons.inj hsplit'
    refine ⟨l :: m :: c ++ y :: d, by simp, hd.append (l :: m :: c), fun x hx => ?_⟩
    rw [List.append_assoc]
    exact .block hk hw hor ho (hp _ .same) hb (hp' x hx)
  | @blank l v w e hb _ ih =>
    obtain ⟨c, rfl, hc, hp⟩ := ih
    exact ⟨l :: c, rfl, Ended.cons hc l, fun x hx => .blank hb (hp x hx)⟩
  | @delimited b l m y u v w x e hu hm _ hw hy ih =>
    obtain ⟨c, hsplit, hc, hp⟩ := ih
    obtain ⟨m', c, rfl⟩ := List.exists_cons_of_ne_nil (Ended.ne_nil hc)
    obtain ⟨rfl, rfl⟩ := List.cons.inj hsplit
    have hclose : Ended [y] := ended_single (by rw [hy]; rfl)
    refine ⟨l :: u ++ m :: c ++ w ++ [y], by simp, hclose.append _, fun z _ => ?_⟩
    have hinner := hp (w ++ y :: z) (Fits.same.append w)
    have h := Parses.delimited (l := l) hu hm hinner hw hy
    simpa using h

section Closed

variable {w z : List Lexeme} {e : Expr}

theorem Closed.stops {l : Lexeme} (h : Closed (l :: w)) (t : Tier) : t.Stops l :=
  fun hk => absurd hk (h l rfl)

theorem Closed.chain (h : Closed z) (hz : z ≠ []) (t : Tier) (left : Expr) :
    Parses (.chain t left) z left z := by
  obtain ⟨l, w, rfl⟩ := List.exists_cons_of_ne_nil hz
  exact .stop (h.stops t)

theorem eq_of_chain {t : Tier} {left : Expr} (h : Parses (.chain t left) w e z) (hw : Closed w) :
    e = left ∧ z = w := by
  cases h with
  | stop => exact ⟨rfl, rfl⟩
  | more hk => exact absurd hk (hw _ rfl)

theorem parses_tier {t : Tier} {v : List Lexeme} (hz : Closed z) (hne : z ≠ [])
    (h : Parses (.ofTier t.tighter) v e z) : Parses (.tier t) v e z :=
  .tier h (hz.chain hne t e)

theorem parses_ofTier {v : List Lexeme} (hz : Closed z) (hne : z ≠ []) (h : Parses .factor v e z)
    (t : Option Tier) : Parses (.ofTier t) v e z := by
  have term : Parses (.tier .term) v e z := parses_tier hz hne h
  have expression : Parses (.tier .expression) v e z := parses_tier hz hne term
  match t with
  | none => exact h
  | some .term => exact term
  | some .expression => exact expression
  | some .logical => exact parses_tier hz hne expression

theorem parses_logical {t : Option Tier} {v : List Lexeme} (hz : Closed z) (hne : z ≠ [])
    (h : Parses (.ofTier t) v e z) : Parses (.tier .logical) v e z := by
  match t with
  | none => exact parses_ofTier hz hne h (some .logical)
  | some .term => exact parses_tier (t := .logical) hz hne (parses_tier (t := .expression) hz hne h)
  | some .expression => exact parses_tier (t := .logical) hz hne h
  | some .logical => exact h

end Closed

/-- From behind an operand, operators and their operands lead to the end of the expression. -/
inductive Leads : List Lexeme → List Lexeme → Prop where
  | stop {z : List Lexeme} : Closed z → z ≠ [] → Leads z z
  | more {t : Tier} {l : Lexeme} {v w z : List Lexeme} {e : Expr} :
    Joins t l → Parses .factor v e w → Leads w z → Leads (l :: v) z

theorem Leads.closed {w z : List Lexeme} (h : Leads w z) : Closed z ∧ z ≠ [] := by
  induction h with
  | stop hz hne => exact ⟨hz, hne⟩
  | more _ _ _ ih => exact ih

theorem Leads.eq_of_closed {w z : List Lexeme} (h : Leads w z) (hw : Closed w) : z = w := by
  cases h with
  | stop => rfl
  | more hl =>
    obtain ⟨s, k, -, hl⟩ := hl
    exact absurd hl.1 (hw _ rfl)

theorem joins_of_binary {t : Tier} {l : Lexeme} {k : OpKind} (hk : l.kind = .operator)
    (hb : OpKind.ofBinary? l.raw.toString = some k) (ht : k.tier? = some t) : Joins t l := by
  have hmem : (l.raw.toString, k) ∈ operators t := mem_operators.2 ⟨hb, ht⟩
  exact ⟨_, k, hmem, hk, raw_of_symbol (.inr ⟨t, hmem⟩)⟩

/-- What follows a part, up to the end of the expression, follows its first factor; if no operator
follows the factor, it is all that the part takes. -/
def Flows : Part → List Lexeme → Expr → List Lexeme → Prop
  | .chain _ _, v, _, w => ∀ z, Leads w z → Leads v z
  | .tier _, v, e, w => ∀ z, Leads w z →
    ∃ a x, Parses .factor v a x ∧ Leads x z ∧ (Closed x → a = e ∧ x = w)
  | _, _, _, _ => True

theorem flows_ofTier {t : Option Tier} {v w z : List Lexeme} {e : Expr}
    (hp : Parses (.ofTier t) v e w) (h : Flows (.ofTier t) v e w) (hz : Leads w z) :
    ∃ a x, Parses .factor v a x ∧ Leads x z ∧ (Closed x → a = e ∧ x = w) := by
  cases t with
  | none => exact ⟨e, w, hp, hz, fun _ => ⟨rfl, rfl⟩⟩
  | some t => exact h z hz

theorem Parses.flows {p : Part} {v w : List Lexeme} {e : Expr} (h : Parses p v e w) :
    Flows p v e w := by
  induction h with
  | tier hleft hchain ihl ihc =>
    intro z hz
    obtain ⟨a, x, hfactor, htail, hsame⟩ := flows_ofTier hleft ihl (ihc z hz)
    refine ⟨a, x, hfactor, htail, fun hx => ?_⟩
    obtain ⟨rfl, rfl⟩ := hsame hx
    obtain ⟨rfl, rfl⟩ := eq_of_chain hchain hx
    exact ⟨rfl, rfl⟩
  | stop => exact fun z hz => hz
  | more hk hb ht hright _ ihr iha =>
    intro z hz
    obtain ⟨a, x, hfactor, htail, -⟩ := flows_ofTier hright ihr (iha z hz)
    exact .more (joins_of_binary hk hb ht) hfactor htail
  | _ => trivial

def Behind (t : Option Tier) (w z : List Lexeme) : Prop :=
  Leads w z ∧ ∀ l ∈ w.head?, ∀ t', Joins t' l → Cursor.rank t < Cursor.rank (some t')

/-- From a factor on, a tier is read up to a looser operator. -/
def Gathers (t : Option Tier) : Prop :=
  ∀ (v w z : List Lexeme) (a : Expr), Parses .factor v a w → Leads w z →
    ∃ e x, Parses (.ofTier t) v e x ∧ Behind t x z ∧ x.length ≤ w.length

theorem length_le_of_parses {p : Part} {v w : List Lexeme} {e : Expr} (h : Parses p v e w) :
    w.length ≤ v.length := by
  obtain ⟨c, rfl, -⟩ := h.frame
  simp

theorem gathers_chain {t : Tier} (h : Gathers t.tighter) {w z : List Lexeme} (left : Expr)
    (hw : Behind t.tighter w z) :
    ∃ e x, Parses (.chain t left) w e x ∧ Behind (some t) x z ∧ x.length ≤ w.length := by
  induction hn : w.length using Nat.strongRecOn generalizing w left with
  | ind n ih =>
  obtain ⟨htail, hlooser⟩ := hw
  cases htail with
  | stop hz hne =>
    refine ⟨left, z, hz.chain hne t left, ⟨.stop hz hne, fun l hl t' hj => ?_⟩, Nat.le_of_eq hn⟩
    obtain ⟨s, k, -, hop⟩ := hj
    exact absurd hop.1 (hz l hl)
  | @more t' l v x _ a hl hfactor hx =>
    by_cases htt : t' = t
    · subst htt
      obtain ⟨right, y, hright, hy, hle⟩ := h v x z a hfactor hx
      have hlt : y.length < n := by
        have := length_le_of_parses hfactor
        rw [List.length_cons] at hn
        omega
      obtain ⟨s, k, hs, hop⟩ := id hl
      obtain ⟨hb, hk⟩ := mem_operators.1 hs
      rw [← hop.toString_raw] at hb
      obtain ⟨e, u, hchain, hu, hle'⟩ := ih y.length hlt (.binary k left right) hy rfl
      exact ⟨e, u, .more hop.1 hb hk hright hchain, hu, by omega⟩
    · have hrank : Cursor.rank (some t) < Cursor.rank (some t') :=
        rank_lt (hlooser l rfl t' hl) htt
      refine ⟨left, l :: v, .stop (hl.stops htt), ⟨.more hl hfactor hx, fun m hm t'' hj => ?_⟩,
        Nat.le_of_eq hn⟩
      cases hm
      rw [hj.unique hl]
      exact hrank

theorem gathers_none : Gathers none := by
  intro v w z a ha hz
  refine ⟨a, w, ha, ⟨hz, fun l _ t' _ => ?_⟩, Nat.le_refl _⟩
  cases t' <;> decide

theorem gathers_some {t : Tier} (h : Gathers t.tighter) : Gathers (some t) := by
  intro v w z a ha hz
  obtain ⟨left, x, hleft, hx, hle⟩ := h v w z a ha hz
  obtain ⟨e, y, hchain, hy, hle'⟩ := gathers_chain h left hx
  exact ⟨e, y, .tier hleft hchain, hy, Nat.le_trans hle' hle⟩

theorem parses_rest {v w z : List Lexeme} {a : Expr} (ha : Parses .factor v a w) (hz : Leads w z) :
    ∃ e, Parses (.tier .logical) v e z := by
  have term : Gathers (some .term) := gathers_some (t := .term) gathers_none
  have expression : Gathers (some .expression) := gathers_some (t := .expression) term
  have logical : Gathers (some .logical) := gathers_some (t := .logical) expression
  obtain ⟨e, x, he, ⟨htail, hlooser⟩, -⟩ := logical v w z a ha hz
  cases htail with
  | stop => exact ⟨e, he⟩
  | @more t' l _ _ _ _ hl =>
    have hrank := hlooser l rfl t' hl
    cases t' <;> exact absurd hrank (by decide)

theorem Parses.relabel {p : Part} {w x : List Lexeme} {e : Expr} (h : Parses p w e x) {t : Tier}
    {left : Expr} (hp : p = .chain t left) (left' : Expr) :
    ∃ e', Parses (.chain t left') w e' x ∧ (left' = left → e' = e) := by
  induction h generalizing left left' with
  | stop hs =>
    cases hp
    exact ⟨left', .stop hs, id⟩
  | @more _ _ _ _ _ k _ right _ hk hb ht hright _ _ ih =>
    cases hp
    obtain ⟨e', hchain, heq⟩ := ih rfl (.binary k left' right)
    exact ⟨e', .more hk hb ht hright hchain, fun h => heq (by rw [h])⟩
  | _ => cases hp

end Grammar

end Reckon
