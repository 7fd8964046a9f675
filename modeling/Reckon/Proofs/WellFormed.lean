import Reckon.Proofs.Grammar
import Reckon.Proofs.ShortestDecimal

namespace Reckon

/-- A letter or an underscore, then letters, digits and underscores, and no keyword. -/
def IsIdentifier (s : String) : Prop :=
  ∃ c cs, s = String.ofList (c :: cs) ∧ (c.isAlpha ∨ c = '_') ∧ (∀ d ∈ cs, isNameChar d) ∧
    ¬ keywords.contains s

/-- What the lexer says about the texts of names, strings and numerals. -/
structure Lexeme.Spelled (l : Lexeme) : Prop where
  name : l.kind = .identifier → IsIdentifier l.raw.toString
  string : l.kind = .string → ∃ cs, l.raw = .ofChars cs ∧ '\\' ∉ cs
  numeral : l.kind = .numeric → ∃ c cs, l.raw.chars = c :: cs ∧ (c.isDigit ∨ c = '.')

theorem backslash_not_mem_stringTail (delimiter : Char) (escaped : Bool) (cs : List Char) :
    '\\' ∉ (stringTail delimiter escaped cs).raw := by
  induction cs generalizing escaped with
  | nil => simp [stringTail]
  | cons c cs ih =>
    rw [stringTail]
    split
    case isTrue h =>
      simp [Tail.keep, h.2, ih]
    split
    · simp
    split
    · exact ih true
    case isFalse hc =>
      simp only [Tail.keep, List.mem_cons, not_or]
      exact ⟨Ne.symm hc, ih false⟩

theorem Lexeme.Spelled.of_kind {l : Lexeme} {k : TokenKind} (hl : l.kind = k)
    (hk : k ≠ .identifier ∧ k ≠ .string ∧ k ≠ .numeric) : l.Spelled := by
  subst hl
  exact ⟨fun h => absurd h hk.1, fun h => absurd h hk.2.1, fun h => absurd h hk.2.2⟩

theorem ReadsAs.spelled {n n' : Nesting} {c : Char} {cs rest : List Char} {l : Lexeme}
    (h : ReadsAs n c cs l n' rest) : l.Spelled := by
  cases h with
  | numeral hc =>
    refine ⟨fun h => ?_, fun h => ?_, fun _ => ⟨c, _, Text.chars_ofChars _, hc⟩⟩
    · cases h
    · cases h
  | string _ ht =>
    subst ht
    refine ⟨fun h => ?_, fun _ => ⟨_, rfl, backslash_not_mem_stringTail _ _ _⟩, fun h => ?_⟩
    · cases h
    · cases h
  | identifier hc hname hw =>
    subst hname
    refine ⟨fun _ => ⟨c, cs.takeWhile isNameChar, ?_, hc, ?_, ?_⟩, fun h => ?_, fun h => ?_⟩
    · simp [Lexeme.plain, Text.toString]
    · exact fun d hd => List.mem_takeWhile_imp hd
    · simpa [Lexeme.plain, Text.toString] using hw
    · cases h
    · cases h
  | opening => exact .of_kind (k := .punctuation) rfl (by decide)
  | closing => exact .of_kind (k := .punctuation) rfl (by decide)
  | compound => exact .of_kind (k := .operator) rfl (by decide)
  | operator => exact .of_kind (k := .operator) rfl (by decide)
  | separator => exact .of_kind (k := .punctuation) rfl (by decide)
  | comment => exact .of_kind (k := .comment) rfl (by decide)
  | eol => exact .of_kind (k := .eol) rfl (by decide)
  | keyword => exact .of_kind (k := .keyword) rfl (by decide)

theorem Scanner.next_spelled {s s' : Scanner} {t : Token} (h : s.next = (.ok t, s')) :
    t.toLexeme.Spelled := by
  rcases next_cases h with ⟨ht, -⟩ | ⟨c, cs, -, hr⟩
  · rw [ht]
    exact .of_kind (k := .eof) rfl (by decide)
  · exact hr.spelled

theorem Scanner.run_spelled {s : Scanner} {ts : List Token} {e : Option LexError}
    (h : s.run = (ts, e)) : ∀ t ∈ ts, t.toLexeme.Spelled := by
  induction s using run.induct generalizing ts e with
  | case1 s e' s' hn =>
    cases (run_error hn).symm.trans h
    exact List.forall_mem_nil _
  | case2 s t s' hn ht =>
    cases (run_eof hn ht).symm.trans h
    exact List.forall_mem_singleton.2 (next_spelled hn)
  | case3 s t s' hn ht _ us e' hrun ih =>
    cases (run_cons hn ht hrun).symm.trans h
    exact List.forall_mem_cons.2 ⟨next_spelled hn, ih hrun⟩

inductive Expr.WellFormed : Expr → Prop where
  | integer {n : Int32} : 0 ≤ n.toInt → WellFormed (.literal (.integer n))
  | float {x : Single} :
    x.exponentField ≠ 255 → ¬ x.negative → WellFormed (.literal (.float x))
  | string {cs : List Char} : '\\' ∉ cs → WellFormed (.literal (.string (.ofChars cs)))
  | boolean (b : Bool) : WellFormed (.literal (.boolean b))
  | symbol {s : String} : IsIdentifier s → WellFormed (.symbol s)
  | unary {k : OpKind} {e : Expr} :
    k = .unaryPass ∨ k = .unaryMinus → WellFormed e → WellFormed (.unary k e)
  | binary {k : OpKind} {e f : Expr} :
    k ∈ OpKind.binary → WellFormed e → WellFormed f → WellFormed (.binary k e f)
  | assignment {s : String} {e : Expr} :
    IsIdentifier s → WellFormed e → WellFormed (.binary .assignment (.symbol s) e)
  | index {s : String} {e : Expr} :
    IsIdentifier s → WellFormed e → WellFormed (.binary .index (.symbol s) e)
  | call {s : String} {e : Expr} :
    IsIdentifier s ∨ s = "print" ∨ s = "if" → WellFormed e → WellFormed (.call s e)
  | define {s : String} {e f : Expr} :
    s = "print" ∨ s = "if" → WellFormed e → WellFormed f → WellFormed (.define s e f)

theorem int32?_nonneg {c : Char} {cs : List Char} {n : Int32} (hc : c.isDigit ∨ c = '.')
    (h : int32? (c :: cs) = some n) : 0 ≤ n.toInt := by
  unfold int32? at h
  rw [splitSign_eq hc] at h
  dsimp only at h
  split at h
  · cases h
  case h_2 m _ =>
    split at h
    case isTrue hm =>
      have hlt : m < 2147483648 := by simpa [Nat.pow_eq] using hm
      cases h
      rw [if_neg (by decide), Int32.toInt_ofInt_of_le (by omega) (by omega)]
      omega
    · cases h

theorem magnitude_of_unsigned? {negative : Bool} {cs : List Char} {x : Single}
    (h : unsigned? negative cs = some x) :
    ∃ m, m < Single.infinity ∧ x = Single.ofMagnitude negative m := by
  have ofRatio {n d : ℕ} (h : Single.ofRatio? negative n d = some x) :
      ∃ m, m < Single.infinity ∧ x = Single.ofMagnitude negative m := by
    unfold Single.ofRatio? at h
    dsimp only at h
    split at h
    case isTrue hm =>
      cases h
      exact ⟨_, hm, rfl⟩
    · cases h
  unfold unsigned? at h
  dsimp only at h
  generalize Mantissa.read _ _ _ = read at h
  generalize readExponent? _ _ = exponent at h
  generalize (splitBase cs).1 = hexadecimal at h
  split at h
  · cases h
  split at h
  · cases h
  split at h
  · split at h
    · cases h
    split at h
    · cases h
      exact ⟨0, by decide, rfl⟩
    split at h
    · split at h
      · exact ofRatio h
      · exact ofRatio h
    · split at h
      · exact ofRatio h
      · exact ofRatio h
  · cases h

theorem Single.finite_of_lt_infinity {m : ℕ} (h : m < infinity) :
    (ofMagnitude false m).exponentField ≠ 255 ∧ ¬ (ofMagnitude false m).negative := by
  have hm : m < 2139095040 := by simpa [infinity] using h
  have hbits : (ofMagnitude false m).bits.toNat = m := by
    simp only [ofMagnitude, Bool.false_eq_true, if_false, UInt32.toNat_ofNat']
    omega
  simp only [exponentField, negative, hbits, Nat.pow_eq, decide_eq_true_eq]
  omega

theorem wellFormed_of_literal {l : Lexeme} {v : Literal} (hl : l.Spelled) (hk : l.kind = .numeric)
    (h : Token.literal { toLexeme := l } = .ok v) : Expr.WellFormed (.literal v) := by
  obtain ⟨c, cs, hchars, hc⟩ := hl.numeral hk
  unfold Token.literal at h
  rw [if_neg (fun hne => hne hk), hchars] at h
  split at h
  · split at h
    case h_1 x hx =>
      cases h
      rw [Single.read?_eq_unsigned? hc] at hx
      obtain ⟨m, hm, rfl⟩ := magnitude_of_unsigned? hx
      obtain ⟨hf, hn⟩ := Single.finite_of_lt_infinity hm
      exact .float hf hn
    · cases h
  · split at h
    case h_1 n hn =>
      cases h
      exact .integer (int32?_nonneg hc hn)
    · cases h

namespace Grammar

theorem Derives.wellFormed {p : Phrase} {w : List Lexeme} {e : Expr} (h : Derives p w e)
    (hw : ∀ l ∈ w, l.Spelled) : e.WellFormed := by
  induction h with
  | operand _ ih => exact ih hw
  | binary _ hs _ _ ihe ihf =>
    obtain ⟨hv, hw⟩ := List.forall_mem_append.1 hw
    obtain ⟨hb, -⟩ := binary_of_ofBinary? (mem_operators.1 hs).1
    exact .binary hb (ihe hv) (ihf (List.forall_mem_cons.1 hw).2)
  | numeral hk hv => exact wellFormed_of_literal (List.forall_mem_singleton.1 hw) hk hv
  | string hk =>
    obtain ⟨cs, hraw, hcs⟩ := (List.forall_mem_singleton.1 hw).string hk
    rw [hraw]
    exact .string hcs
  | constant => exact .boolean _
  | sign hs _ _ ih =>
    refine .unary ?_ (ih (List.forall_mem_cons.1 hw).2)
    simp only [signs, List.mem_cons, List.not_mem_nil, or_false, Prod.mk.injEq] at hs
    rcases hs with ⟨-, rfl⟩ | ⟨-, rfl⟩
    · exact .inl rfl
    · exact .inr rfl
  | group _ ih => exact ih hw
  | name hk => exact .symbol ((List.forall_mem_singleton.1 hw).name hk)
  | assignment hk _ _ ih =>
    obtain ⟨hl, hw⟩ := List.forall_mem_cons.1 hw
    exact .assignment (hl.name hk) (ih (List.forall_mem_cons.1 hw).2)
  | call hk _ ih =>
    obtain ⟨hl, hw⟩ := List.forall_mem_cons.1 hw
    exact .call (.inl (hl.name hk)) (ih hw)
  | index hk _ ih =>
    obtain ⟨hl, hw⟩ := List.forall_mem_cons.1 hw
    exact .index (hl.name hk) (ih hw)
  | command hword _ _ ih => exact .call (.inr hword) (ih (List.forall_mem_cons.1 hw).2)
  | block hword _ _ _ ih ih' =>
    obtain ⟨hv, hw⟩ := List.forall_mem_append.1 hw
    exact .define hword (ih (List.forall_mem_cons.1 hv).2) (ih' hw)
  | blank _ _ ih => exact ih (List.forall_mem_cons.1 hw).2
  | enclosed _ _ _ _ _ ih =>
    obtain ⟨hw, -⟩ := List.forall_mem_append.1 hw
    obtain ⟨hw, -⟩ := List.forall_mem_append.1 hw
    exact ih (List.forall_mem_append.1 hw).2

theorem DerivesAll.wellFormed {w : List Lexeme} {es : List Expr} (h : DerivesAll w es)
    (hw : ∀ l ∈ w, l.Spelled) : ∀ e ∈ es, e.WellFormed := by
  induction h with
  | one he => exact List.forall_mem_singleton.2 (he.wellFormed hw)
  | cons he _ _ _ ih =>
    obtain ⟨hw, hes⟩ := List.forall_mem_append.1 hw
    exact List.forall_mem_cons.2 ⟨he.wellFormed (List.forall_mem_append.1 hw).1, ih hes⟩

end Grammar

/-- Every parsed tree is well formed. -/
theorem Program.wellFormed_of_parse {source : List Char} {p : Program}
    (h : Program.parse source = .ok p) : ∀ e ∈ p.exprs, e.WellFormed := by
  obtain ⟨ls, ⟨ts, hrun, rfl⟩, hd⟩ := Grammar.derivesProgram_of_parse h
  have hts : ∀ l ∈ ts.map (·.toLexeme), l.Spelled :=
    List.forall_mem_map.2 (Scanner.run_spelled hrun)
  generalize ts.map (·.toLexeme) = ls at hd hts
  generalize p.exprs = es at hd
  cases hd with
  | empty => exact List.forall_mem_nil _
  | statements _ hall _ _ =>
    obtain ⟨hts, -⟩ := List.forall_mem_append.1 hts
    obtain ⟨hts, -⟩ := List.forall_mem_append.1 hts
    exact hall.wellFormed (List.forall_mem_append.1 hts).2

end Reckon
