import Reckon.Proofs.Framing
import Reckon.Proofs.NodeCount

namespace Reckon

namespace Grammar

def previous (prev : Option Lexeme) (w : List Lexeme) : Option Lexeme :=
  w.foldl (fun _ l => some l) prev

theorem previous_append (prev : Option Lexeme) (v w : List Lexeme) :
    previous prev (v ++ w) = previous (previous prev v) w := List.foldl_append

theorem previous_ended {w : List Lexeme} (h : Ended w) (prev : Option Lexeme) :
    (previous prev w).any Lexeme.endsValue := by
  obtain ⟨v, l, rfl, hl⟩ := h
  rw [previous_append]
  exact hl

theorem previous_blanks {u : List Lexeme} (hu : Blanks u) {prev : Option Lexeme}
    (h : ¬ prev.any Lexeme.endsValue) : ¬ (previous prev u).any Lexeme.endsValue := by
  induction u generalizing prev with
  | nil => exact h
  | cons l u ih =>
    obtain ⟨hl, hu⟩ := List.forall_mem_cons.1 hu
    exact ih hu (not_endsValue_of_isBlank hl)

/-- How the operand of an operator is read. Behind an operand the operator is binary or an
assignment, elsewhere it is a sign. -/
def operandPart (prev : Option Lexeme) (op : Lexeme) : Part :=
  if op.isOperator "=" then .tier .logical
  else if prev.any Lexeme.endsValue then
    .ofTier (((OpKind.ofBinary? op.raw.toString).bind OpKind.tier?).bind Tier.tighter)
  else .factor

theorem operandPart_binary {prev : Option Lexeme} {op : Lexeme} {k : OpKind} {t : Tier}
    (hprev : prev.any Lexeme.endsValue) (hk : op.kind = .operator)
    (hb : OpKind.ofBinary? op.raw.toString = some k) (ht : k.tier? = some t) :
    operandPart prev op = .ofTier t.tighter := by
  have hassign : ¬ op.isOperator "=" := (joins_of_binary hk hb ht).not_assigns
  rw [operandPart, if_neg hassign, if_pos hprev, hb, Option.bind_some, ht, Option.bind_some]

theorem operandPart_sign {prev : Option Lexeme} {op : Lexeme} {k : OpKind}
    (hprev : ¬ prev.any Lexeme.endsValue) (hs : OpKind.ofSign? op.raw.toString = some k) :
    operandPart prev op = .factor := by
  have hassign : ¬ op.isOperator "=" := by
    intro ha
    rw [(is_of_isOperator ha).toString_raw] at hs
    have hnone : OpKind.ofSign? "=" = none := by decide
    rw [hnone] at hs
    cases hs
  rw [operandPart, if_neg hassign, if_neg hprev]

theorem operandPart_assign {prev : Option Lexeme} {op : Lexeme} (h : op.isOperator "=") :
    operandPart prev op = .tier .logical := if_pos h

/-- The operand `e₀` of an operator, up to `r`, and the rest `e₁` of its expression, up to `z`. -/
structure Site (role : Part) (y : List Lexeme) (e₀ e₁ : Expr) (r z : List Lexeme) : Prop where
  operand : Parses role y e₀ r
  rest : Parses (.tier .logical) y e₁ z
  ne_nil : z ≠ []
  size_lt : ¬ Closed r → e₀.size < e₁.size

theorem Leads.weight_lt {w z : List Lexeme} (h : Leads w z) (hw : ¬ Closed w) :
    weight z < weight w := by
  have weight_le {w z : List Lexeme} (h : Leads w z) : weight z ≤ weight w := by
    induction h with
    | stop => exact Nat.le_refl _
    | more _ hfactor _ ih =>
      have hcount : _ = _ := hfactor.weighs
      rw [weight_cons]
      omega
  cases h with
  | stop hz => exact absurd hz hw
  | more hl hfactor htail =>
    obtain ⟨s, k, -, hop⟩ := hl
    have hcount : _ = _ := hfactor.weighs
    have hle := weight_le htail
    rw [weight_cons, weight_of_kind hop.1 (by decide)]
    omega

theorem exists_site {t : Option Tier} {y r z : List Lexeme} {e₀ : Expr}
    (h : Parses (.ofTier t) y e₀ r) (hz : Leads r z) :
    ∃ e₁, Site (.ofTier t) y e₀ e₁ r z ∧ (Closed r → e₁ = e₀ ∧ z = r) := by
  obtain ⟨hclosed, hne⟩ := hz.closed
  by_cases hr : Closed r
  · obtain rfl := hz.eq_of_closed hr
    exact ⟨e₀, ⟨h, parses_logical hclosed hne h, hne, fun hn => absurd hr hn⟩,
      fun _ => ⟨rfl, rfl⟩⟩
  · obtain ⟨a, u, ha, hu, -⟩ := flows_ofTier h h.flows hz
    obtain ⟨e₁, hrest⟩ := parses_rest ha hu
    have hcount₀ := weighs_ofTier h.weighs
    have hcount₁ : _ = _ := hrest.weighs
    have hlt := hz.weight_lt hr
    exact ⟨e₁, ⟨h, hrest, hne, fun _ => by omega⟩, fun hc => absurd hc hr⟩

section Site

variable {op : Lexeme} {prev prev' : Option Lexeme} {p q : Part} {x x' y w z : List Lexeme}
  {e : Expr}

/-- The rest `y` of an expression behind an operator may be replaced by any factor that is read as
this rest, and then the part that holds the operator ends with the expression, or where it did. The
tree stays the same if the operand of the operator went as far as the expression; in any case the
operator has this operand in the one tree and the rest in the other. -/
def Regroups (op : Lexeme) (prev : Option Lexeme) (p : Part) (x y : List Lexeme) (e : Expr)
    (w z : List Lexeme) : Prop :=
  ∃ e₀ e₁ r z₁ e' w' i, Site (operandPart (previous prev x) op) y e₀ e₁ r z₁ ∧
    (∀ f, Parses .factor (f ++ z₁) e₁ z₁ → Parses p (x ++ op :: (f ++ z₁)) e' w') ∧
    (w' = z ∨ w' = w) ∧ (Closed r → e' = e ∧ w' = w) ∧
    e.Measures i e₀.size ∧ e'.Measures i e₁.size

theorem Regroups.wrap {g : Expr → Expr} (h : Regroups op prev' p x' y e w z)
    (hprev : previous prev x = previous prev' x') (hc : Expr.Carries g)
    (hg : ∀ v e' w', Parses p (x' ++ op :: v) e' w' → Parses q (x ++ op :: v) (g e') w') :
    Regroups op prev q x y (g e) w z := by
  obtain ⟨e₀, e₁, r, z₁, e', w', i, hsite, hp, hw', hsame, hi, hi'⟩ := h
  obtain ⟨j, hj⟩ := hc i
  rw [← hprev] at hsite
  refine ⟨e₀, e₁, r, z₁, g e', w', j, hsite, fun f hf => hg _ _ _ (hp f hf), hw', fun hr => ?_,
    hj _ _ hi, hj _ _ hi'⟩
  obtain ⟨rfl, rfl⟩ := hsame hr
  exact ⟨rfl, rfl⟩

theorem Regroups.enclosed {m : List Lexeme} {g : Expr → Expr}
    (h : Regroups op prev' p x' y e m m) (hprev : previous prev x = previous prev' x')
    (hc : Expr.Carries g)
    (hg : ∀ v e', Parses p (x' ++ op :: v) e' m → Parses q (x ++ op :: v) (g e') w) :
    Regroups op prev q x y (g e) w z := by
  obtain ⟨e₀, e₁, r, z₁, e', m', i, hsite, hp, hm', hsame, hi, hi'⟩ := h
  obtain rfl : m' = m := by
    rcases hm' with h | h <;> exact h
  obtain ⟨j, hj⟩ := hc i
  rw [← hprev] at hsite
  exact ⟨e₀, e₁, r, z₁, g e', w, j, hsite, fun f hf => hg _ _ (hp f hf), .inr rfl,
    fun hr => ⟨congrArg g (hsame hr).1, rfl⟩, hj _ _ hi, hj _ _ hi'⟩

theorem Regroups.operand {g : Expr → Expr} {right : Expr} {m : List Lexeme} {t : Option Tier}
    {i : Nat} (hright : Parses (.ofTier t) y right m) (hz : Leads m z)
    (hrole : operandPart (previous prev x) op = .ofTier t)
    (hend : Closed m → e = g right ∧ w = m) (hi : ∀ a, (g a).Measures i a.size)
    (hthrough : (g right).Measures i right.size → e.Measures i right.size)
    (hp : ∀ v e₁ z₁, Closed z₁ → z₁ ≠ [] → Parses .factor v e₁ z₁ →
      Parses p (x ++ op :: v) (g e₁) z₁) : Regroups op prev p x y e w z := by
  obtain ⟨hclosed, hne⟩ := hz.closed
  obtain ⟨e₁, hsite, hsame⟩ := exists_site hright hz
  rw [← hrole] at hsite
  refine ⟨right, e₁, m, z, g e₁, z, i, hsite, fun f hf => hp _ _ _ hclosed hne hf, .inl rfl,
    fun hm => ?_, hthrough (hi right), hi e₁⟩
  obtain ⟨rfl, rfl⟩ := hsame hm
  obtain ⟨rfl, rfl⟩ := hend hm
  exact ⟨rfl, rfl⟩

theorem Parses.measures {v : List Lexeme} (h : Parses p v e w) {t : Tier} {left : Expr}
    (hp : p = .chain t left) {i n : Nat} (hi : left.Measures i n) : e.Measures i n := by
  induction h generalizing left with
  | stop =>
    cases hp
    exact hi
  | more _ _ _ _ _ _ ih =>
    cases hp
    exact ih rfl (hi.left _ _)
  | _ => cases hp

theorem Regroups.chain {t : Tier} {left : Expr} {m : List Lexeme} {g : Expr → Expr}
    (h : Regroups op prev' p x' y left m z) (hprev : previous prev x = previous prev' x')
    (hc : Expr.Carries g) (hz : Leads w z) (hchain : Parses (.chain t (g left)) m e w)
    (hg : ∀ v left' m' e' w', Parses p (x' ++ op :: v) left' m' →
      Parses (.chain t (g left')) m' e' w' → Parses q (x ++ op :: v) e' w') :
    Regroups op prev q x y e w z := by
  obtain ⟨e₀, e₁, r, z₁, left', m', i, hsite, hp, hm', hsame, hi, hi'⟩ := h
  obtain ⟨hclosed, hne⟩ := hz.closed
  obtain ⟨j, hj⟩ := hc i
  have hleft : e.Measures j e₀.size := hchain.measures rfl (hj _ _ hi)
  rw [← hprev] at hsite
  rcases hm' with rfl | rfl
  · -- The operand ends with the expression, and so does the chain.
    refine ⟨e₀, e₁, r, z₁, g left', m', j, hsite,
      fun f hf => hg _ _ _ _ _ (hp f hf) (hclosed.chain hne t _), .inl rfl, fun hr => ?_, hleft,
      hj _ _ hi'⟩
    obtain ⟨rfl, rfl⟩ := hsame hr
    obtain ⟨rfl, rfl⟩ := eq_of_chain hchain hclosed
    exact ⟨rfl, rfl⟩
  · obtain ⟨e', hchain', heq⟩ := hchain.relabel rfl (g left')
    refine ⟨e₀, e₁, r, z₁, e', w, j, hsite, fun f hf => hg _ _ _ _ _ (hp f hf) hchain', .inr rfl,
      fun hr => ?_, hleft, hchain'.measures rfl (hj _ _ hi')⟩
    obtain ⟨rfl, -⟩ := hsame hr
    exact ⟨heq rfl, rfl⟩

/-- Where a part begins that holds the operator: a chain behind an operand, the others not. -/
def Enters : Part → Option Lexeme → List Lexeme → List Lexeme → List Lexeme → Prop
  | .chain _ _, prev, _, w, z => prev.any Lexeme.endsValue ∧ Leads w z
  | .delimited _, _, x, w, z => (∃ l x', x = l :: x' ∧ ¬ l.endsValue) ∧ z = w
  | _, prev, _, w, z => ¬ prev.any Lexeme.endsValue ∧ Leads w z

theorem enters_ofTier {t : Option Tier} (hprev : ¬ prev.any Lexeme.endsValue) (hz : Leads w z) :
    Enters (.ofTier t) prev x w z := by
  cases t <;> exact ⟨hprev, hz⟩

theorem split_append {c m : List Lexeme} (h : c ++ m = x ++ op :: y) :
    (∃ x', x = c ++ x' ∧ m = x' ++ op :: y) ∨ op ∈ c ∧ m.length ≤ y.length := by
  rcases List.append_eq_append_iff.1 h with ⟨x', hx, hm⟩ | ⟨c', hc', hm⟩
  · exact .inl ⟨x', hx, hm⟩
  · cases c' with
    | nil => exact .inl ⟨[], by simpa using hc'.symm, hm.symm⟩
    | cons l c' =>
      obtain ⟨rfl, rfl⟩ := List.cons.inj hm
      exact .inr ⟨by simp [hc'], by simp⟩

theorem split_of_length {c m : List Lexeme} (h : c ++ m = x ++ op :: y)
    (hlen : ¬ m.length ≤ y.length) : ∃ x', x = c ++ x' ∧ m = x' ++ op :: y :=
  (split_append h).resolve_right fun hc => hlen hc.2

theorem split_of_kind {c m : List Lexeme} (hop : op.kind = .operator)
    (hc : ∀ l ∈ c, l.kind ≠ .operator) (h : c ++ m = x ++ op :: y) :
    ∃ x', x = c ++ x' ∧ m = x' ++ op :: y :=
  (split_append h).resolve_right fun h => hc op h.1 hop

theorem split_cons {l : Lexeme} {m : List Lexeme} (hop : op.kind = .operator)
    (hl : l.kind ≠ .operator) (h : l :: m = x ++ op :: y) : ∃ x', x = l :: x' ∧ m = x' ++ op :: y :=
  split_of_kind (c := [l]) hop (List.forall_mem_singleton.2 hl) h

theorem not_operator_of_isOpening {l : Lexeme} {a : Char} (h : l.isOpening a) :
    l.kind ≠ .operator := by
  rw [Cursor.kind_of_isOpening h]
  decide

theorem not_operator_of_closing {l : Lexeme} {b : Bracket} (h : l = .closing b.closer 0) :
    l.kind ≠ .operator := by
  rw [(is_of_closing h).1]
  decide

theorem not_operator_of_isBlank {l : Lexeme} (h : l.isBlank) : l.kind ≠ .operator := by
  intro hk
  simp [Lexeme.isBlank, hk] at h

/-- Wherever the operator stands in what a part takes, the rest behind it regroups. -/
def Regrouped (op : Lexeme) (p : Part) (v : List Lexeme) (e : Expr) (w : List Lexeme) : Prop :=
  ∀ ⦃prev : Option Lexeme⦄ ⦃x y z : List Lexeme⦄, v = x ++ op :: y → w.length ≤ y.length →
    Enters p prev x w z → Regroups op prev p x y e w z

end Site

theorem not_endsValue_of_operator {l : Lexeme} (hl : l.kind = .operator) :
    ¬ (some l).any Lexeme.endsValue :=
  not_endsValue_of_kind hl (.inl rfl)

-- One lemma for each way to build a part: the operator is the first lexeme that the part looks at,
-- or it stands in one of the parts that this one is made of.
namespace Regrouped

variable {op : Lexeme} {p : Part} {v w m : List Lexeme} {e left right all : Expr} {t : Tier}
  {k : OpKind}

theorem tier (hleft : Parses (.ofTier t.tighter) v left m) (hchain : Parses (.chain t left) m e w)
    (ihl : Regrouped op (.ofTier t.tighter) v left m) (ihc : Regrouped op (.chain t left) m e w) :
    Regrouped op (.tier t) v e w := by
  intro prev x y z hv hlen ⟨hprev, hz⟩
  have hm : Leads m z := hchain.flows z hz
  -- It stands in the first operand if no more lexemes follow it than the operand leaves.
  by_cases hin : m.length ≤ y.length
  · exact (ihl hv hin (enters_ofTier hprev hm)).chain (g := id) rfl Expr.carries_id hz hchain
      fun _ _ _ _ _ hl hc => .tier hl hc
  · obtain ⟨c, rfl, hc, hframe⟩ := hleft.frame
    obtain ⟨x', rfl, rfl⟩ := split_of_length hv hin
    refine (ihc rfl hlen ⟨previous_ended (taken_ofTier hc) prev, hz⟩).wrap (g := id)
      (previous_append prev c x') Expr.carries_id fun v e' w' hp => ?_
    rw [List.append_assoc]
    exact .tier (hframe _ (Fits.same.append x')) hp

theorem stop {l : Lexeme} : Regrouped op (.chain t left) (l :: w) left (l :: w) := by
  intro prev x y z hv hlen _
  have hle := congrArg List.length hv
  simp at hle hlen
  omega

theorem more {l : Lexeme} (hk : l.kind = .operator)
    (hb : OpKind.ofBinary? l.raw.toString = some k) (ht : k.tier? = some t)
    (hright : Parses (.ofTier t.tighter) v right m)
    (hchain : Parses (.chain t (.binary k left right)) m all w)
    (ihr : Regrouped op (.ofTier t.tighter) v right m)
    (iha : Regrouped op (.chain t (.binary k left right)) m all w) :
    Regrouped op (.chain t left) (l :: v) all w := by
  intro prev x y z hv hlen ⟨hprev, hz⟩
  have hm : Leads m z := hchain.flows z hz
  cases x with
  | nil =>
    obtain ⟨rfl, rfl⟩ := List.cons.inj hv
    refine .operand (g := .binary k left) hright hm (operandPart_binary hprev hk hb ht)
      (fun hclosed => eq_of_chain hchain hclosed) (Expr.measures_last _ left)
      (fun hi => hchain.measures rfl hi) fun v e₁ z₁ hclosed hne hf => ?_
    exact .more hk hb ht (parses_ofTier hclosed hne hf _) (hclosed.chain hne t _)
  | cons l' x =>
    obtain ⟨rfl, rfl⟩ := List.cons.inj hv
    by_cases hin : m.length ≤ y.length
    · exact (ihr rfl hin (enters_ofTier (not_endsValue_of_operator hk) hm)).chain
        (g := .binary k left) rfl (Expr.carries_right _ left) hz hchain
        fun _ _ _ _ _ hr hc => .more hk hb ht hr hc
    · obtain ⟨c, hsplit, hc, hframe⟩ := hright.frame
      obtain ⟨x', rfl, rfl⟩ := split_of_length hsplit.symm hin
      have hprev' : previous prev (l :: (c ++ x')) = previous (previous (some l) c) x' :=
        previous_append (some l) c x'
      refine (iha rfl hlen ⟨previous_ended (taken_ofTier hc) (some l), hz⟩).wrap (g := id)
        hprev' Expr.carries_id fun v e' w' hp => ?_
      rw [List.cons_append, List.append_assoc]
      exact .more hk hb ht (hframe _ (Fits.same.append x')) hp

theorem sign {l : Lexeme} (hk : l.kind = .operator)
    (hs : OpKind.ofSign? l.raw.toString = some k) (hoperand : Parses .factor v e w)
    (ih : Regrouped op .factor v e w) : Regrouped op .factor (l :: v) (.unary k e) w := by
  intro prev x y z hv hlen ⟨hprev, hz⟩
  cases x with
  | nil =>
    obtain ⟨rfl, rfl⟩ := List.cons.inj hv
    exact .operand (g := .unary k) (t := none) hoperand hz (operandPart_sign hprev hs)
      (fun _ => ⟨rfl, rfl⟩) (Expr.measures_prefixed _) id fun _ _ _ _ _ hf => .sign hk hs hf
  | cons l' x =>
    obtain ⟨rfl, rfl⟩ := List.cons.inj hv
    exact (ih rfl hlen ⟨not_endsValue_of_operator hk, hz⟩).wrap (g := .unary k) rfl
      (Expr.carries_prefixed _) fun _ _ _ hp => .sign hk hs hp

variable (hop : op.kind = .operator)

include hop

theorem atom {l : Lexeme} {kind : TokenKind} (hl : l.kind = kind) (hk : kind ≠ .operator) :
    Regrouped op .factor (l :: w) e w := by
  intro prev x y z hv hlen _
  obtain ⟨x', -, rfl⟩ := split_cons hop (hl ▸ hk) hv
  simp at hlen
  omega

theorem assignment {l m : Lexeme} (hk : l.kind = .identifier) (ho : m.isOperator "=")
    (hvalue : Parses (.tier .logical) v e w) (ih : Regrouped op (.tier .logical) v e w) :
    Regrouped op .factor (l :: m :: v) (.binary .assignment (.symbol l.raw.toString) e) w := by
  intro prev x y z hv hlen ⟨_, hz⟩
  obtain ⟨x, rfl, hv'⟩ := split_cons hop (by rw [hk]; decide) hv
  cases x with
  | nil =>
    obtain ⟨rfl, rfl⟩ := List.cons.inj hv'
    refine .operand (g := .binary .assignment (.symbol l.raw.toString)) (t := some .logical)
      hvalue hz (operandPart_assign ho) (fun _ => ⟨rfl, rfl⟩) (Expr.measures_last _ _) id
      fun v e₁ z₁ hclosed hne hf => ?_
    exact .assignment hk ho (parses_ofTier hclosed hne hf (some .logical))
  | cons m' x =>
    obtain ⟨rfl, rfl⟩ := List.cons.inj hv'
    have hinner := ih rfl hlen ⟨not_endsValue_of_operator (is_of_isOperator ho).1, hz⟩
    exact hinner.wrap (g := .binary .assignment (.symbol l.raw.toString)) rfl
      (Expr.carries_right _ _) fun _ _ _ hp => .assignment hk ho hp

theorem blank {l : Lexeme} (hb : l.isBlank) (ih : Regrouped op (.tier .logical) v e w) :
    Regrouped op .factor (l :: v) e w := by
  intro prev x y z hv hlen ⟨_, hz⟩
  obtain ⟨x, rfl, rfl⟩ := split_cons hop (not_operator_of_isBlank hb) hv
  have hprev : ¬ (some l).any Lexeme.endsValue := not_endsValue_of_isBlank hb
  exact (ih rfl hlen ⟨hprev, hz⟩).wrap (g := id) rfl Expr.carries_id
    fun _ _ _ hp => .blank hb hp

theorem group {l : Lexeme} (ho : l.isOpening '(')
    (ih : Regrouped op (.delimited .round) (l :: v) e w) : Regrouped op .factor (l :: v) e w := by
  intro prev x y z hv hlen _
  obtain ⟨x, rfl, rfl⟩ := split_cons hop (not_operator_of_isOpening ho) hv
  have hinner : Regroups op prev (.delimited .round) (l :: x) y e w w :=
    ih rfl hlen ⟨⟨l, x, rfl, not_endsValue_of_isOpening ho⟩, rfl⟩
  exact hinner.enclosed (g := id) rfl Expr.carries_id fun _ _ hp => .group ho hp

theorem split_called {l m : Lexeme} {a : Char} {x y : List Lexeme} (hl : l.kind ≠ .operator)
    (hm : m.isOpening a) (hv : l :: m :: v = x ++ op :: y) :
    ∃ x', x = l :: m :: x' ∧ v = x' ++ op :: y := by
  obtain ⟨x', rfl, hv'⟩ := split_cons hop hl hv
  obtain ⟨x'', rfl, hv''⟩ := split_cons hop (not_operator_of_isOpening hm) hv'
  exact ⟨x'', rfl, hv''⟩

theorem called {l m : Lexeme} {a : Char} {b : Bracket} {g : Expr → Expr}
    (hl : l.kind ≠ .operator) (hm : m.isOpening a) (hc : Expr.Carries g)
    (hg : ∀ v e, Parses (.delimited b) (m :: v) e w → Parses .factor (l :: m :: v) (g e) w)
    (ih : Regrouped op (.delimited b) (m :: v) e w) :
    Regrouped op .factor (l :: m :: v) (g e) w := by
  intro prev x y z hv hlen _
  obtain ⟨x, rfl, rfl⟩ := split_called hop hl hm hv
  have hinner : Regroups op (some l) (.delimited b) (m :: x) y e w w :=
    ih rfl hlen ⟨⟨m, x, rfl, not_endsValue_of_isOpening hm⟩, rfl⟩
  exact hinner.enclosed rfl hc fun _ _ hp => hg _ _ hp

theorem block {l m b : Lexeme} {r : List Lexeme} {word : String} {f : Expr}
    (hk : l.kind = .keyword) (hw : l.raw.toString = word) (hor : word = "print" ∨ word = "if")
    (ho : m.isOpening '(') (hcond : Parses (.delimited .round) (m :: v) e (b :: w))
    (hb : b.isOpening Bracket.curly.opener) (hbody : Parses (.delimited .curly) (b :: w) f r)
    (ih : Regrouped op (.delimited .round) (m :: v) e (b :: w))
    (ih' : Regrouped op (.delimited .curly) (b :: w) f r) :
    Regrouped op .factor (l :: m :: v) (.define word e f) r := by
  intro prev x y z hv hlen _
  obtain ⟨x, rfl, rfl⟩ := split_called hop (by rw [hk]; decide) ho hv
  by_cases hin : (b :: w).length ≤ y.length
  · have hinner : Regroups op (some l) (.delimited .round) (m :: x) y e (b :: w) (b :: w) :=
      ih rfl hin ⟨⟨m, x, rfl, not_endsValue_of_isOpening ho⟩, rfl⟩
    exact hinner.enclosed (g := fun e => .define word e f) rfl (Expr.carries_left _ f)
      fun _ _ hp => .block hk hw hor ho hp hb hbody
  · obtain ⟨c, hsplit, hc, hframe⟩ := hcond.frame
    obtain ⟨x', hx, hrest⟩ := split_of_length (x := m :: x) hsplit.symm hin
    obtain ⟨x', rfl, rfl⟩ := split_cons hop (not_operator_of_isOpening hb) hrest
    have hinner : Regroups op (previous (some l) c) (.delimited .curly) (b :: x') y f r r :=
      ih' rfl hlen ⟨⟨b, x', rfl, not_endsValue_of_isOpening hb⟩, rfl⟩
    have hprev' : previous prev (l :: m :: x) = previous (previous (some l) c) (b :: x') := by
      rw [← previous_append, ← hx]
      rfl
    refine hinner.enclosed (g := .define word e) hprev' (Expr.carries_right _ e) fun v e' hp => ?_
    have hcond' := hframe (b :: x' ++ op :: v) .same
    rw [← List.append_assoc, ← hx] at hcond'
    exact .block hk hw hor ho hcond' hb hp

theorem delimited {b : Bracket} {l m r : Lexeme} {u s : List Lexeme} (hu : Blanks u)
    (hm : ¬ m.isBlank) (hexpr : Parses (.tier .logical) (m :: v) e (w ++ r :: s)) (hw : Blanks w)
    (hr : r = .closing b.closer 0) (ih : Regrouped op (.tier .logical) (m :: v) e (w ++ r :: s)) :
    Regrouped op (.delimited b) (l :: u ++ m :: v) e s := by
  rintro prev x y z hv hlen ⟨⟨l', x, rfl, hl⟩, rfl⟩
  obtain ⟨rfl, hv'⟩ := List.cons.inj hv
  obtain ⟨x, rfl, hm'⟩ := split_of_kind hop (fun l hl => not_operator_of_isBlank (hu l hl)) hv'
  -- The operator stands neither in the blanks before the closing bracket nor behind it.
  have hin : (w ++ r :: z).length ≤ y.length := by
    apply Decidable.byContradiction
    intro hout
    obtain ⟨c, hsplit, -, -⟩ := hexpr.frame
    obtain ⟨x', -, hrest⟩ := split_of_length (hsplit.symm.trans hm') hout
    have hkinds : ∀ l ∈ w ++ [r], l.kind ≠ .operator := by
      intro l hl
      rcases List.mem_append.1 hl with hl | hl
      · exact not_operator_of_isBlank (hw l hl)
      · rw [List.mem_singleton.1 hl]
        exact not_operator_of_closing hr
    obtain ⟨x'', -, rfl⟩ := split_of_kind hop hkinds (by simpa using hrest)
    simp at hlen
    omega
  have hprev : ¬ (previous (some l) u).any Lexeme.endsValue := previous_blanks hu hl
  have hrest : Leads (w ++ r :: z) (w ++ r :: z) := .stop hexpr.closed (by simp)
  have hprev' : previous prev (l :: (u ++ x)) = previous (previous (some l) u) x :=
    previous_append (some l) u x
  refine (ih hm' hin ⟨hprev, hrest⟩).enclosed (g := id) hprev' Expr.carries_id
    fun v e' hp => ?_
  rw [List.cons_append, List.append_assoc]
  cases x with
  | nil => exact .delimited hu (Cursor.not_isBlank_of_kind hop (by decide)) hp hw hr
  | cons m' x =>
    obtain ⟨rfl, -⟩ := List.cons.inj hm'
    exact .delimited hu hm hp hw hr

end Regrouped

theorem Parses.regrouped {op : Lexeme} {p : Part} {v w : List Lexeme} {e : Expr}
    (h : Parses p v e w) (hop : op.kind = .operator) : Regrouped op p v e w := by
  induction h with
  | tier hleft hchain ihl ihc => exact .tier hleft hchain ihl ihc
  | stop => exact .stop
  | more hk hb ht hright hchain ihr iha => exact .more hk hb ht hright hchain ihr iha
  | numeral hk => exact .atom hop hk (by decide)
  | string hk => exact .atom hop hk (by decide)
  | constant hk => exact .atom hop hk (by decide)
  | name hk => exact .atom hop hk (by decide)
  | sign hk hs hoperand ih => exact .sign hk hs hoperand ih
  | group ho _ ih => exact .group hop ho ih
  | assignment hk ho hvalue ih => exact .assignment hop hk ho hvalue ih
  | call hk ho _ ih =>
    exact .called hop (by rw [hk]; decide) ho (Expr.carries_prefixed _)
      (fun _ _ hp => .call hk ho hp) ih
  | index hk ho _ ih =>
    exact .called hop (by rw [hk]; decide) ho (Expr.carries_right _ _)
      (fun _ _ hp => .index hk ho hp) ih
  | command hk hw hor ho _ hend ih =>
    exact .called hop (by rw [hk]; decide) ho (Expr.carries_prefixed _)
      (fun _ _ hp => .command hk hw hor ho hp hend) ih
  | block hk hw hor ho hcond hb hbody ih ih' =>
    exact .block hop hk hw hor ho hcond hb hbody ih ih'
  | blank hb _ ih => exact .blank hop hb ih
  | delimited hu hm hexpr hw hr ih => exact .delimited hop hu hm hexpr hw hr ih

section Program

variable {op : Lexeme} {prev : Option Lexeme} {v w x y z : List Lexeme} {e : Expr} {es : List Expr}

theorem not_operator_of_endsStatement {l : Lexeme} (h : endsStatement l) : l.kind ≠ .operator := by
  intro hk
  simp [endsStatement, hk] at h

/-- In a program, the rest of an expression behind an operator may be replaced by any factor that is
read as this rest. The program stays the same just when the operand of the operator went as far. -/
theorem ParsesAll.regroups (h : ParsesAll v es) (hop : op.kind = .operator)
    (hv : v = x ++ op :: y) (hprev : ¬ prev.any Lexeme.endsValue ∨ ∀ l ∈ v.head?, endsStatement l) :
    ∃ e₀ e₁ r z es', Site (operandPart (previous prev x) op) y e₀ e₁ r z ∧
      (∀ f, Parses .factor (f ++ z) e₁ z → ParsesAll (x ++ op :: (f ++ z)) es') ∧
      (es' = es ↔ Closed r) := by
  induction h generalizing x prev with
  | @done u l hu hk =>
    have hkinds : ∀ m ∈ u ++ [l], m.kind ≠ .operator := by
      intro m hm
      rcases List.mem_append.1 hm with hm | hm
      · exact not_operator_of_isBlank (hu m hm)
      · rw [List.mem_singleton.1 hm, hk]
        decide
    have hmem : op ∈ u ++ [l] := by simp [hv]
    exact absurd hop (hkinds op hmem)
  | @cons u v w l m e es hu hl hk hp hend hall ih =>
    obtain ⟨x, rfl, hx⟩ := split_of_kind hop (fun l hl => not_operator_of_isBlank (hu l hl)) hv
    rw [previous_append]
    by_cases hin : (m :: w).length ≤ y.length
    · have hstart : ¬ (previous prev u).any Lexeme.endsValue := by
        rcases hprev with hprev | hprev
        · exact previous_blanks hu hprev
        · cases u with
          | nil =>
            rcases endsStatement_iff.1 (hprev l rfl) with hblank | heof
            · exact absurd hblank hl
            · exact absurd heof hk
          | cons b u =>
            obtain ⟨hb, hu⟩ := List.forall_mem_cons.1 hu
            exact previous_blanks hu (not_endsValue_of_isBlank hb)
      have hrest : Leads (m :: w) (m :: w) := .stop hp.closed (List.cons_ne_nil _ _)
      obtain ⟨e₀, e₁, r, z, e', w', i, hsite, hf, hw', hsame, hi, hi'⟩ :=
        hp.regrouped hop hx hin ⟨hstart, hrest⟩
      obtain rfl : w' = m :: w := by
        rcases hw' with h | h <;> exact h
      refine ⟨e₀, e₁, r, z, e' :: es, hsite, fun f hfactor => ?_, ?_⟩
      · rw [List.append_assoc]
        have hparse := hf f hfactor
        cases x with
        | nil =>
          exact .cons hu (Cursor.not_isBlank_of_kind hop (by decide)) (by rw [hop]; decide) hparse
            hend hall
        | cons l' x =>
          obtain ⟨rfl, -⟩ := List.cons.inj hx
          exact .cons hu hl hk hparse hend hall
      · constructor
        · -- In equal trees the operator has operands of the same size.
          intro hes
          obtain ⟨rfl, -⟩ := List.cons.inj hes
          have hsizes : e₀.size = e₁.size := Option.some.inj (hi.symm.trans hi')
          apply Classical.byContradiction
          intro hr
          exact Nat.lt_irrefl _ (hsizes ▸ hsite.size_lt hr)
        · intro hr
          rw [(hsame hr).1]
    · obtain ⟨c, hsplit, hc, hframe⟩ := hp.frame
      obtain ⟨x', rfl, hw⟩ := split_of_length (hsplit.symm.trans hx) hin
      obtain ⟨x', rfl, rfl⟩ := split_cons hop (not_operator_of_endsStatement hend) hw
      have hstart : ¬ (previous (previous prev u) c).any Lexeme.endsValue ∨
          ∀ l ∈ (m :: (x' ++ op :: y)).head?, endsStatement l := by
        refine .inr ?_
        rintro l ⟨⟩
        exact hend
      obtain ⟨e₀, e₁, r, z, es', hsite, hf, hsame⟩ := ih (x := m :: x') rfl hstart
      rw [previous_append]
      refine ⟨e₀, e₁, r, z, e :: es', hsite, fun f hfactor => ?_,
        by rw [List.cons_inj_right, hsame]⟩
      have hparse := hframe (m :: x' ++ op :: (f ++ z)) .same
      obtain ⟨l', c, rfl⟩ := List.exists_cons_of_ne_nil hc.ne_nil
      obtain ⟨rfl, -⟩ := List.cons.inj hsplit
      rw [List.append_assoc, List.append_assoc]
      exact .cons hu hl hk hparse hend (hf f hfactor)

theorem parses_blanks {u : List Lexeme} (hu : Blanks u) (hne : u ≠ []) (hz : z ≠ [])
    (h : Parses (.tier .logical) v e z) : Parses .factor (u ++ v) e z := by
  induction u with
  | nil => exact absurd rfl hne
  | cons b u ih =>
    obtain ⟨hb, hu⟩ := List.forall_mem_cons.1 hu
    cases u with
    | nil => exact .blank hb h
    | cons b' u =>
      have hrest := ih hu (List.cons_ne_nil _ _)
      exact .blank hb (parses_ofTier h.closed hz hrest (some .logical))

theorem parses_of_blank {l : Lexeme} (h : Parses .factor (l :: v) e w) (hl : l.isBlank) :
    Parses (.tier .logical) v e w := by
  have absent {k : TokenKind} (hk : l.kind = k) (hne : k ≠ .eol ∧ k ≠ .comment) : False := by
    simp only [Lexeme.isBlank, hk, decide_eq_true_eq] at hl
    rcases hl with rfl | rfl
    · exact hne.1 rfl
    · exact hne.2 rfl
  cases h with
  | blank _ h => exact h
  | group ho => exact (absent (Cursor.kind_of_isOpening ho) (by decide)).elim
  | _ hk => exact (absent hk (by decide)).elim

theorem Parses.strip (h : Parses (.tier .logical) v e z) (hz : z ≠ []) :
    ∃ u m v', v = u ++ m :: v' ∧ Blanks u ∧ ¬ m.isBlank ∧
      Parses (.tier .logical) (m :: v') e z := by
  induction v with
  | nil => exact absurd rfl (h.ne_nil hz)
  | cons l v ih =>
    by_cases hl : l.isBlank
    · obtain ⟨a, x, hfactor, -, hsame⟩ := h.flows z (.stop h.closed hz)
      have hrest := parses_of_blank hfactor hl
      obtain ⟨rfl, rfl⟩ := hsame hrest.closed
      obtain ⟨u, m, v', rfl, hu, hm, hp⟩ := ih hrest
      exact ⟨l :: u, m, v', rfl, List.forall_mem_cons.2 ⟨hl, hu⟩, hm, hp⟩
    · exact ⟨[], l, v, rfl, List.forall_mem_nil _, hl, h⟩

theorem parses_bracketed {mid : List Lexeme} (h : Parses (.tier .logical) (mid ++ z) e z)
    (hz : z ≠ []) : Parses .factor (.opening '(' 0 :: mid ++ .closing ')' 0 :: z) e z := by
  obtain ⟨u, m, v, hsplit, hu, hm, hp⟩ := h.strip hz
  obtain ⟨c, hc, htaken, hframe⟩ := hp.frame
  obtain ⟨m', c, rfl⟩ := List.exists_cons_of_ne_nil (Ended.ne_nil htaken)
  obtain ⟨rfl, rfl⟩ := List.cons.inj hc
  obtain rfl : mid = u ++ m :: c := List.append_cancel_right (hsplit.trans (by simp))
  have hclose : EndsSequence (.closing ')' 0) := .inr (.inr rfl)
  have hgroup : Parses (.delimited .round) _ e z :=
    .delimited (l := .opening '(' 0) (w := []) hu hm (hframe _ (.ends hclose))
      (List.forall_mem_nil _) rfl
  have h := Parses.group (isOpening_opening '(' 0) hgroup
  simpa using h

def HasOperand (before : List Lexeme) (op : Lexeme) (after : List Lexeme) (e : Expr)
    (rest : List Lexeme) : Prop :=
  Parses (operandPart (previous none before) op) after e rest

theorem HasOperand.closed (h : HasOperand x op y e z) (hop : op.isOperator "=") : Closed z := by
  rw [HasOperand, operandPart_assign hop] at h
  exact Parses.closed h

/-- A line break behind an operator of a program does what brackets around the rest of the
expression do. -/
theorem ParsesAll.insert_blanks (h : ParsesAll (x ++ op :: y) es) (hop : op.kind = .operator) :
    ∃ es', (∀ u, Blanks u → u ≠ [] → ParsesAll (x ++ op :: (u ++ y)) es') ∧
      (∃ e mid rest, y = mid ++ rest ∧ Parses (.tier .logical) (mid ++ rest) e rest ∧
        ParsesAll (x ++ op :: .opening '(' 0 :: mid ++ .closing ')' 0 :: rest) es') ∧
      ∃ e rest, HasOperand x op y e rest ∧ (es' = es ↔ Closed rest) := by
  have hstart : ¬ (none : Option Lexeme).any Lexeme.endsValue ∨
      ∀ l ∈ (x ++ op :: y).head?, endsStatement l := .inl Bool.false_ne_true
  obtain ⟨e₀, e₁, r, z, es', ⟨hoperand, hy, hne, -⟩, hf, hsame⟩ := h.regroups hop rfl hstart
  obtain ⟨mid, rfl, -, -⟩ := hy.frame
  refine ⟨es', fun u hu hu' => ?_, ⟨e₁, mid, z, rfl, hy, ?_⟩, e₀, r, hoperand, hsame⟩
  · have hfactor := parses_blanks hu hu' hne hy
    rw [← List.append_assoc] at hfactor ⊢
    exact hf _ hfactor
  · have hfactor := parses_bracketed hy hne
    rw [List.append_cons] at hfactor
    have hall := hf _ hfactor
    simpa using hall

end Program

end Grammar

end Reckon
