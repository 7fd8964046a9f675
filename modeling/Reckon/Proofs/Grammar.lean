import Reckon.Proofs.Outcomes

namespace Reckon

namespace Grammar

def operators : Tier → List (String × OpKind)
  | .logical => [("&&", .booleanAnd), ("||", .booleanOr)]
  | .expression => [("+", .plus), ("-", .subtract)]
  | .term =>
    [("*", .multiply), ("/", .division), ("%", .modulos), ("==", .equal), ("<", .lessThan),
      (">", .greaterThan), ("<=", .lessThanOrEqual), (">=", .greaterThanOrEqual)]

def signs : List (String × OpKind) := [("+", .unaryPass), ("-", .unaryMinus)]

/-- The phrases that stand for one expression; `enclosed` is one between brackets. -/
inductive Phrase where
  | factor
  | tier (t : Tier)
  | enclosed (b : Bracket)

def Phrase.operand : Tier → Phrase
  | .logical => .tier .expression
  | .expression => .tier .term
  | .term => .factor

def Blanks (w : List Lexeme) : Prop := ∀ l ∈ w, l.isBlank

inductive Derives : Phrase → List Lexeme → Expr → Prop where
  | operand {t : Tier} {w : List Lexeme} {e : Expr} :
    Derives (.operand t) w e → Derives (.tier t) w e
  | binary {t : Tier} {v w : List Lexeme} {l : Lexeme} {s : String} {k : OpKind} {e f : Expr} :
    Derives (.tier t) v e → (s, k) ∈ operators t → l.Is .operator s → Derives (.operand t) w f →
    Derives (.tier t) (v ++ l :: w) (.binary k e f)
  | numeral {l : Lexeme} {v : Literal} :
    l.kind = .numeric → Token.literal { toLexeme := l } = .ok v → Derives .factor [l] (.literal v)
  | string {l : Lexeme} : l.kind = .string → Derives .factor [l] (.literal (.string l.raw))
  | constant {l : Lexeme} {b : Bool} :
    l.Is .keyword (.ofString (if b then "true" else "false")) →
    Derives .factor [l] (.literal (.boolean b))
  | sign {l : Lexeme} {w : List Lexeme} {s : String} {k : OpKind} {e : Expr} :
    (s, k) ∈ signs → l.Is .operator s → Derives .factor w e → Derives .factor (l :: w) (.unary k e)
  | group {w : List Lexeme} {e : Expr} : Derives (.enclosed .round) w e → Derives .factor w e
  | name {l : Lexeme} : l.kind = .identifier → Derives .factor [l] (.symbol l.raw.toString)
  | assignment {l m : Lexeme} {w : List Lexeme} {e : Expr} :
    l.kind = .identifier → m.Is .operator "=" → Derives (.tier .logical) w e →
    Derives .factor (l :: m :: w) (.binary .assignment (.symbol l.raw.toString) e)
  | call {l : Lexeme} {w : List Lexeme} {e : Expr} :
    l.kind = .identifier → Derives (.enclosed .round) w e →
    Derives .factor (l :: w) (.call l.raw.toString e)
  | index {l : Lexeme} {w : List Lexeme} {e : Expr} :
    l.kind = .identifier → Derives (.enclosed .square) w e →
    Derives .factor (l :: w) (.binary .index (.symbol l.raw.toString) e)
  | command {l : Lexeme} {word : String} {w : List Lexeme} {e : Expr} :
    word = "print" ∨ word = "if" → l.Is .keyword word → Derives (.enclosed .round) w e →
    Derives .factor (l :: w) (.call word e)
  | block {l : Lexeme} {word : String} {v w : List Lexeme} {e f : Expr} :
    word = "print" ∨ word = "if" → l.Is .keyword word → Derives (.enclosed .round) v e →
    Derives (.enclosed .curly) w f → Derives .factor (l :: v ++ w) (.define word e f)
  | blank {l : Lexeme} {w : List Lexeme} {e : Expr} :
    l.isBlank → Derives (.tier .logical) w e → Derives .factor (l :: w) e
  | enclosed {b : Bracket} {l m : Lexeme} {u v w : List Lexeme} {e : Expr} :
    l.Is .punctuation (.ofChars [b.opener]) → Blanks u → Derives (.tier .logical) v e → Blanks w →
    m.Is .punctuation (.ofChars [b.closer]) →
    Derives (.enclosed b) (l :: u ++ v ++ w ++ [m]) e

inductive DerivesAll : List Lexeme → List Expr → Prop where
  | one {w : List Lexeme} {e : Expr} : Derives (.tier .logical) w e → DerivesAll w [e]
  | cons {u v w : List Lexeme} {l : Lexeme} {e : Expr} {es : List Expr} :
    Derives (.tier .logical) u e → l.isBlank → Blanks v → DerivesAll w es →
    DerivesAll (u ++ l :: v ++ w) (e :: es)

/-- A program: blanks, or statements with blanks around them, up to the end of the source. -/
inductive DerivesProgram : List Lexeme → List Expr → Prop where
  | empty {u : List Lexeme} {l : Lexeme} : Blanks u → l.kind = .eof → DerivesProgram (u ++ [l]) []
  | statements {u v w : List Lexeme} {l : Lexeme} {es : List Expr} :
    Blanks u → DerivesAll v es → Blanks w → l.kind = .eof → DerivesProgram (u ++ v ++ w ++ [l]) es

theorem binary_of_ofBinary? {s : String} {k : OpKind} (h : OpKind.ofBinary? s = some k) :
    k ∈ OpKind.binary ∧ k.symbol = s :=
  ⟨List.mem_of_find?_eq_some h, by simpa using List.find?_some h⟩

theorem mem_operators {t : Tier} {s : String} {k : OpKind} :
    (s, k) ∈ operators t ↔ OpKind.ofBinary? s = some k ∧ k.tier? = some t := by
  have spelled : ∀ t, ∀ p ∈ operators t,
      OpKind.ofBinary? p.1 = some p.2 ∧ p.2.tier? = some t := by
    intro t
    cases t <;> decide
  have listed : ∀ t, ∀ k ∈ OpKind.binary, k.tier? = some t → (k.symbol, k) ∈ operators t := by
    intro t
    cases t <;> decide
  constructor
  · exact spelled t (s, k)
  · rintro ⟨hs, ht⟩
    obtain ⟨hk, rfl⟩ := binary_of_ofBinary? hs
    exact listed t k hk ht

theorem exists_operators {k : OpKind} (h : k ∈ OpKind.binary) :
    ∃ t, (k.symbol, k) ∈ operators t := by
  have known : ∀ k ∈ OpKind.binary, OpKind.ofBinary? k.symbol = some k ∧ k.tier?.isSome := by decide
  obtain ⟨hk, ht⟩ := known k h
  obtain ⟨t, ht⟩ := Option.isSome_iff_exists.1 ht
  exact ⟨t, mem_operators.2 ⟨hk, ht⟩⟩

theorem mem_signs {s : String} {k : OpKind} : (s, k) ∈ signs ↔ OpKind.ofSign? s = some k := by
  constructor
  · intro h
    simp only [signs, List.mem_cons, List.not_mem_nil, or_false, Prod.mk.injEq] at h
    rcases h with ⟨rfl, rfl⟩ | ⟨rfl, rfl⟩ <;> decide
  · intro h
    unfold OpKind.ofSign? at h
    split at h
    case isTrue hs =>
      cases h
      simp [signs, hs]
    · split at h
      case isTrue hs =>
        cases h
        simp [signs, hs]
      · cases h

theorem raw_of_symbol {raw : Text} {k : OpKind}
    (h : (raw.toString, k) ∈ signs ∨ ∃ t, (raw.toString, k) ∈ operators t) :
    raw = .ofString raw.toString := by
  have hsigns : ∀ p ∈ signs, replacement ∉ p.1.toList := by decide
  have hoperators : ∀ t, ∀ p ∈ operators t, replacement ∉ p.1.toList := by
    intro t
    cases t <;> decide
  rcases h with h | ⟨t, h⟩
  · exact Text.eq_ofString rfl (hsigns _ h)
  · exact Text.eq_ofString rfl (hoperators t _ h)

/-- What is read for a part of the parser is derived from the phrase it stands for. -/
def Derived : Part → Cursor → Expr → List Lexeme → Prop
  | .factor, _, e, w => Derives .factor w e
  | .tier t, _, e, w => Derives (.tier t) w e
  | .chain t left, _, e, w => ∀ v, Derives (.tier t) v left → Derives (.tier t) (v ++ w) e
  | .delimited b, c, e, w => c.current.isOpening b.opener → Derives (.enclosed b) w e

theorem derived_operand {t : Tier} {c : Cursor} {e : Expr} {w : List Lexeme}
    (h : Derived (.ofTier t.tighter) c e w) : Derives (.operand t) w e := by
  cases t with
  | logical => exact h
  | expression => exact h
  | term => exact h

theorem is_of_isOpening {l : Lexeme} {c : Char} (h : l.isOpening c) :
    l.Is .punctuation (.ofChars [c]) := by
  simp only [Lexeme.isOpening, decide_eq_true_eq] at h
  exact ⟨h.1, h.2.2⟩

theorem is_of_closing {l : Lexeme} {c : Char} {depth : Int} (h : l = .closing c depth) :
    l.Is .punctuation (.ofChars [c]) := by
  subst h
  exact ⟨rfl, rfl⟩

theorem is_of_isOperator {l : Lexeme} {s : String} (h : l.isOperator s) : l.Is .operator s := by
  simp only [Lexeme.isOperator, decide_eq_true_eq] at h
  exact h

theorem literal_congr {t t' : Token} {v : Literal} (h : t.literal = .ok v)
    (ht : t.toLexeme = t'.toLexeme) : t'.literal = .ok v := by
  obtain ⟨l, p⟩ := t
  obtain ⟨l', p'⟩ := t'
  obtain rfl : l = l' := ht
  unfold Token.literal at h ⊢
  split at h
  · cases h
  case isFalse hk =>
    rw [if_neg hk]
    split at h
    case isTrue hp =>
      rw [if_pos hp]
      split at h
      case h_1 x hx =>
        cases h
        simp only [hx]
      · cases h
    case isFalse hp =>
      rw [if_neg hp]
      split at h
      case h_1 x hx =>
        cases h
        simp only [hx]
      · cases h

theorem is_of_word {raw : Text} {word : String} (h : raw.toString = word)
    (hw : word = "print" ∨ word = "if") : raw = .ofString word := by
  rcases hw with rfl | rfl
  · exact Text.eq_ofString h (by decide)
  · exact Text.eq_ofString h (by decide)

theorem derived_of_reads {p : Part} {c d : Cursor} {e : Expr} (h : Cursor.Reads p c e d) :
    ∃ w, c.Steps w d ∧ Derived p c e w := by
  induction h with
  | tier _ _ ihl ihc =>
    obtain ⟨v, hv, hl⟩ := ihl
    obtain ⟨w, hw, hc⟩ := ihc
    exact ⟨v ++ w, hv.trans hw, hc v (.operand (derived_operand hl))⟩
  | stop _ =>
    refine ⟨[], .refl _, fun v hv => ?_⟩
    rw [List.append_nil]
    exact hv
  | @more t c _ _ _ k _ _ _ hk hb ht hs _ _ ihr iha =>
    obtain ⟨v, hv, hr⟩ := ihr
    obtain ⟨w, hw, ha⟩ := iha
    refine ⟨c.current.toLexeme :: v ++ w, (Cursor.Steps.cons hs hv).trans hw, fun u hu => ?_⟩
    have hop : (c.current.raw.toString, k) ∈ operators t := mem_operators.2 ⟨hb, ht⟩
    have hbin := ha _ (.binary hu hop ⟨hk, raw_of_symbol (.inr ⟨t, hop⟩)⟩ (derived_operand hr))
    rw [List.append_assoc] at hbin
    exact hbin
  | numeral hk hl hs => exact ⟨_, hs.steps, .numeral hk (literal_congr hl rfl)⟩
  | string hk hs => exact ⟨_, hs.steps, .string hk⟩
  | @constant _ _ b hk hw hs =>
    refine ⟨_, hs.steps, .constant ⟨hk, Text.eq_ofString hw ?_⟩⟩
    cases b <;> decide
  | @sign c _ _ k _ hk hsign hs _ ih =>
    obtain ⟨w, hw, ho⟩ := ih
    have hmem : (c.current.raw.toString, k) ∈ signs := mem_signs.2 hsign
    exact ⟨_, .cons hs hw, .sign hmem ⟨hk, raw_of_symbol (.inl hmem)⟩ ho⟩
  | group ho _ ih =>
    obtain ⟨w, hw, he⟩ := ih
    exact ⟨w, hw, .group (he ho)⟩
  | name hk hs _ _ => exact ⟨_, hs.steps, .name hk⟩
  | assignment hk hs ho hs' _ ih =>
    obtain ⟨w, hw, hv⟩ := ih
    exact ⟨_, .cons hs (.cons hs' hw), .assignment hk (is_of_isOperator ho) hv⟩
  | call hk hs ho _ ih =>
    obtain ⟨w, hw, ha⟩ := ih
    exact ⟨_, .cons hs hw, .call hk (ha ho)⟩
  | index hk hs ho _ ih =>
    obtain ⟨w, hw, ha⟩ := ih
    exact ⟨_, .cons hs hw, .index hk (ha ho)⟩
  | command hk hw hor hs ho _ _ ih =>
    obtain ⟨w, hsteps, ha⟩ := ih
    exact ⟨_, .cons hs hsteps, .command hor ⟨hk, is_of_word hw hor⟩ (ha ho)⟩
  | block hk hw hor hs ho _ hb _ ih ih' =>
    obtain ⟨v, hv, ha⟩ := ih
    obtain ⟨w, hw', hbody⟩ := ih'
    refine ⟨_, (Cursor.Steps.cons hs hv).trans hw', ?_⟩
    exact .block hor ⟨hk, is_of_word hw hor⟩ (ha ho) (hbody hb)
  | blank hb hs _ ih =>
    obtain ⟨w, hw, he⟩ := ih
    exact ⟨_, .cons hs hw, .blank hb he⟩
  | delimited hs hskip _ hskip' hclose hs' ih =>
    obtain ⟨⟨u, hu, hsteps⟩, -⟩ := hskip
    obtain ⟨v, hv, he⟩ := ih
    obtain ⟨⟨w, hw, hsteps'⟩, -⟩ := hskip'
    refine ⟨_, (((Cursor.Steps.cons hs hsteps).trans hv).trans hsteps').trans hs'.steps, ?_⟩
    exact fun ho => .enclosed (is_of_isOpening ho) hu he hw (is_of_closing hclose)

theorem DerivesAll.ne_nil {w : List Lexeme} {es : List Expr} (h : DerivesAll w es) : es ≠ [] := by
  cases h <;> nofun

theorem eq_nil_of_readsAll {c d : Cursor} {es : List Expr} (h : c.ReadsAll es d)
    (hc : c.current.kind = .eof) : es = [] := by
  cases h with
  | done => rfl
  | cons hskip hk =>
    obtain ⟨⟨u, -, hu⟩, -⟩ := hskip
    cases hu with
    | refl => exact absurd hc hk
    | cons hs => exact absurd hc hs.1

/-- The blanks in front are kept apart, because they end the statement before them. -/
theorem derivesAll_of_readsAll {c d : Cursor} {es : List Expr} (h : c.ReadsAll es d) :
    d.current.kind = .eof ∧ ∃ u v w, Blanks u ∧ (c.current.isBlank → u ≠ []) ∧ Blanks w ∧
      c.Steps (u ++ v ++ w) d ∧ (es = [] ∧ v = [] ∨ DerivesAll v es) := by
  induction h with
  | @done c d hskip hk =>
    obtain ⟨⟨u, hu, hsteps⟩, hn⟩ := hskip
    refine ⟨hk, u, [], [], hu, ?_, List.forall_mem_nil _, ?_, .inl ⟨rfl, rfl⟩⟩
    · rintro hb rfl
      cases hsteps
      exact hn hb
    · simpa using hsteps
  | @cons c d f g e es hskip hk he hend hall ih =>
    obtain ⟨⟨u, hu, hsteps⟩, hn⟩ := hskip
    obtain ⟨v, hv, hd⟩ := derived_of_reads he
    obtain ⟨hg, u', v', w', hu', hne, hw', hsteps', hes⟩ := ih
    have hfront : c.current.isBlank → u ≠ [] := by
      rintro hb rfl
      cases hsteps
      exact hn hb
    refine ⟨hg, ?_⟩
    rcases hes with ⟨rfl, rfl⟩ | hes
    · refine ⟨u, v, u' ++ w', hu, hfront, ?_, ?_, .inr (.one hd)⟩
      · exact List.forall_mem_append.2 ⟨hu', hw'⟩
      · rw [List.append_nil] at hsteps'
        exact (hsteps.trans hv).trans hsteps'
    · have hf : f.current.isBlank := by
        simp only [endsStatement, decide_eq_true_eq] at hend
        rcases hend with h | h | h
        · simp [Lexeme.isBlank, h]
        · simp [Lexeme.isBlank, h]
        · exact absurd (eq_nil_of_readsAll hall h) hes.ne_nil
      obtain ⟨l, u', rfl⟩ := List.exists_cons_of_ne_nil (hne hf)
      obtain ⟨hl, hu'⟩ := List.forall_mem_cons.1 hu'
      refine ⟨u, v ++ l :: u' ++ v', w', hu, hfront, hw', ?_, .inr (.cons hd hl hu' hes)⟩
      have := (hsteps.trans hv).trans hsteps'
      simpa using this

def Lexes (source : List Char) (ls : List Lexeme) : Prop :=
  ∃ ts, lex source = (ts, none) ∧ ts.map (·.toLexeme) = ls

theorem derivesProgram_of_parse {source : List Char} {p : Program}
    (h : Program.parse source = .ok p) :
    ∃ ls, Lexes source ls ∧ DerivesProgram ls p.exprs := by
  obtain ⟨c, d, ⟨hp, hc⟩, hall⟩ := Program.parse_eq_ok.1 h
  obtain ⟨hd, u, v, w, hu, -, hw, hsteps, hes⟩ := derivesAll_of_readsAll hall
  refine ⟨_, Scanner.run_of_steps hsteps hc hp hd, ?_⟩
  rcases hes with ⟨hnil, rfl⟩ | hes
  · rw [hnil, List.append_nil]
    exact .empty (List.forall_mem_append.2 ⟨hu, hw⟩) hd
  · exact .statements hu hes hw hd

end Grammar

end Reckon
