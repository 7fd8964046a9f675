import Mathlib
import Reckon.Number.Numeral
import Reckon.Proofs.Rounding

namespace Reckon

def Decimal.value (d : Decimal) : ℚ := d.digits * 10 ^ d.exponent

theorem pow_le_of_digitCount {n : ℕ} (hn : n ≠ 0) : 10 ^ (digitCount n - 1) ≤ n := by
  by_contra hlt
  rcases Nat.eq_zero_or_pos (digitCount n - 1) with h0 | hpos
  · rw [h0] at hlt
    omega
  · have hle := (Nat.length_toDigits_le_iff (by decide) hpos).2 (not_le.1 hlt)
    change digitCount n ≤ _ at hle
    omega

theorem lt_pow_digitCount (n : ℕ) : n < 10 ^ digitCount n :=
  (Nat.length_toDigits_le_iff (by decide) Nat.length_toDigits_pos).1 le_rfl

theorem log10Ratio_le {n d : ℕ} (hn : 0 < n) (hd : 0 < d) :
    (10 : ℚ) ^ log10Ratio n d ≤ n / d := by
  have hd' : (0 : ℚ) < d := by exact_mod_cast hd
  unfold log10Ratio
  split
  case isTrue hle =>
    have hq : n / d ≠ 0 := (Nat.div_pos hle hd).ne'
    have hcount : (digitCount (n / d) : ℤ) - 1 = (digitCount (n / d) - 1 : ℕ) := by
      have : 0 < digitCount (n / d) := Nat.length_toDigits_pos
      omega
    rw [hcount, zpow_natCast, le_div_iff₀ hd']
    have hmul : 10 ^ (digitCount (n / d) - 1) * d ≤ n :=
      (Nat.mul_le_mul_right d (pow_le_of_digitCount hq)).trans (Nat.div_mul_le_self n d)
    exact_mod_cast hmul
  case isFalse hlt =>
    rw [zpow_neg, zpow_natCast, inv_le_comm₀ (by positivity) (by positivity), inv_div,
      div_le_iff₀ (by exact_mod_cast hn)]
    have hmul : d ≤ 10 ^ digitCount ((d - 1) / n) * n := by
      have hdiv := (Nat.div_lt_iff_lt_mul hn).1 (lt_pow_digitCount ((d - 1) / n))
      omega
    exact_mod_cast hmul

namespace Interval

variable {i : Interval} {k : ℤ} {D : ℕ}

/-- The distance of two multiples of `10 ^ k`, in the whole numbers that are compared. -/
def unit (i : Interval) (k : ℤ) : ℕ := if 0 ≤ k then i.scale * Nat.pow 10 k.toNat else i.scale

/-- What makes multiples of `10 ^ k` whole. -/
def factor (k : ℤ) : ℕ := if 0 ≤ k then 1 else Nat.pow 10 (-k).toNat

theorem factor_pos (k : ℤ) : 0 < factor k := by
  unfold factor
  split
  · exact Nat.one_pos
  · exact Nat.pow_pos (by decide)

theorem unit_eq (i : Interval) (k : ℤ) : (i.unit k : ℚ) = 10 ^ k * i.scale * factor k := by
  unfold unit factor
  split
  case isTrue hk =>
    obtain ⟨m, rfl⟩ := Int.eq_ofNat_of_zero_le hk
    simp [mul_comm]
  case isFalse hk =>
    obtain ⟨m, rfl⟩ : ∃ m : ℕ, k = -(m : ℤ) := ⟨(-k).toNat, by omega⟩
    simp
    field_simp

theorem contains_iff : i.Contains (D * 10 ^ k) ↔
    i.above (factor k) (D * i.unit k) ∧ i.below (factor k) (D * i.unit k) := by
  have hfactor : (0 : ℚ) < factor k := by exact_mod_cast factor_pos k
  have hvalue : (D * 10 ^ k * i.scale : ℚ) * factor k = (D * i.unit k : ℕ) := by
    rw [Nat.cast_mul, unit_eq]
    ring
  have hle (a : ℕ) : (a : ℚ) ≤ D * 10 ^ k * i.scale ↔ a * factor k ≤ D * i.unit k := by
    rw [← mul_le_mul_iff_left₀ hfactor, hvalue]
    exact_mod_cast Iff.rfl
  have hge (a : ℕ) : (D * 10 ^ k * i.scale : ℚ) ≤ a ↔ D * i.unit k ≤ a * factor k := by
    rw [← mul_le_mul_iff_left₀ hfactor, hvalue]
    exact_mod_cast Iff.rfl
  unfold Contains above below
  split
  · rw [hle, hge, decide_eq_true_eq, decide_eq_true_eq]
  · rw [← not_le, ← not_le, hle, hge, not_le, not_le, decide_eq_true_eq, decide_eq_true_eq]

def floor (i : Interval) (k : ℤ) : ℕ := i.centre * factor k / i.unit k

def nearerUp (i : Interval) (k : ℤ) : Bool :=
  i.unit k < 2 * (i.centre * factor k % i.unit k) ∨
    2 * (i.centre * factor k % i.unit k) = i.unit k ∧ i.floor k % 2 = 1

theorem best?_eq (i : Interval) (k : ℤ) : i.best? k =
    if i.above (factor k) (i.floor k * i.unit k) &&
        (!i.below (factor k) ((i.floor k + 1) * i.unit k) || !i.nearerUp k) then some (i.floor k)
    else if i.below (factor k) ((i.floor k + 1) * i.unit k) then some (i.floor k + 1)
    else none := rfl

theorem best?_contains (hlow : i.low < i.centre) (hhigh : i.centre < i.high)
    (hunit : 0 < i.unit k) (h : i.best? k = some D) : i.Contains (D * 10 ^ k) := by
  have hfactor := factor_pos k
  have hlow' : i.low * factor k < i.centre * factor k := Nat.mul_lt_mul_of_pos_right hlow hfactor
  have hhigh' : i.centre * factor k < i.high * factor k := Nat.mul_lt_mul_of_pos_right hhigh hfactor
  have hfloor : i.floor k * i.unit k ≤ i.centre * factor k := Nat.div_mul_le_self _ _
  have hceil : i.centre * factor k < (i.floor k + 1) * i.unit k :=
    Nat.lt_mul_of_div_lt (Nat.lt_succ_self _) hunit
  rw [contains_iff]
  rw [best?_eq] at h
  split at h
  case isTrue hchoice =>
    cases h
    rw [Bool.and_eq_true] at hchoice
    refine ⟨hchoice.1, ?_⟩
    unfold below
    split <;> simp only [decide_eq_true_eq] <;> omega
  · split at h
    case isTrue hupper =>
      cases h
      refine ⟨?_, hupper⟩
      unfold above
      split <;> simp only [decide_eq_true_eq] <;> omega
    · cases h

theorem best?_isSome (h : i.centre * factor k + i.unit k < i.high * factor k) :
    (i.best? k).isSome := by
  have hfloor : i.floor k * i.unit k ≤ i.centre * factor k := Nat.div_mul_le_self _ _
  have hupper : i.below (factor k) ((i.floor k + 1) * i.unit k) := by
    rw [Nat.add_mul]
    unfold below
    split <;> simp only [decide_eq_true_eq] <;> omega
  rw [best?_eq, if_pos hupper]
  split <;> rfl

/-- If the last digit count that is tried has a multiple in the interval, the search finds one. -/
theorem search_contains (hlow : i.low < i.centre) (hhigh : i.centre < i.high)
    (hscale : 0 < i.scale) (lead : ℤ) (count fuel : ℕ)
    (h : (i.best? (lead - (count + fuel : ℕ) + 1)).isSome) :
    i.Contains (i.search lead count fuel).value := by
  have hunit (k : ℤ) : 0 < i.unit k := by
    unfold unit
    split
    · exact Nat.mul_pos hscale (Nat.pow_pos (by decide))
    · exact hscale
  induction fuel generalizing count with
  | zero =>
    obtain ⟨D, hD⟩ := Option.isSome_iff_exists.1 h
    rw [Nat.add_zero] at hD
    simp only [search, hD, Option.getD_some, Decimal.value]
    exact best?_contains hlow hhigh (hunit _) hD
  | succ fuel ih =>
    unfold search
    split
    case h_1 D hD =>
      exact best?_contains hlow hhigh (hunit _) hD
    · apply ih
      have hcount : count + 1 + fuel = count + (fuel + 1) := by omega
      rw [hcount]
      exact h

end Interval

theorem Decimal.strip_value (d : Decimal) : d.strip.value = d.value := by
  induction d using Decimal.strip.induct with
  | case1 d h ih =>
    rw [strip.eq_def, dif_pos h, ih, value, value]
    have hten : (d.digits : ℚ) = (d.digits / 10 : ℕ) * 10 := by
      have : d.digits = d.digits / 10 * 10 := by omega
      exact_mod_cast this
    rw [zpow_add_one₀ (by norm_num)]
    conv_rhs => rw [hten]
    ring
  | case2 d h => rw [strip.eq_def, dif_neg h]

namespace Single

theorem interval_lt {x : Single} (hx : x.significand ≠ 0) :
    x.interval.low < x.interval.centre ∧ x.interval.centre < x.interval.high := by
  obtain ⟨hlow, hcentre, hhigh⟩ := interval_ends hx
  have hscale : (0 : ℚ) < x.interval.scale := by exact_mod_cast x.interval_scale_pos
  have hunit := mul_pos x.quarter_pos hscale
  have hbelow : (0 : ℚ) < x.below := by
    unfold below
    split <;> norm_num
  constructor
  · have : (x.interval.low : ℚ) < x.interval.centre := by
      rw [hlow, hcentre]
      nlinarith
    exact_mod_cast this
  · have : (x.interval.centre : ℚ) < x.interval.high := by
      rw [hhigh, hcentre]
      nlinarith
    exact_mod_cast this

/-- Nine digits always suffice, since `2 ^ 24 < 10 ^ 8`. -/
theorem best?_ninth {x : Single} (hx : x.significand ≠ 0) :
    (x.interval.best? (log10Ratio x.interval.centre x.interval.scale - 8)).isSome := by
  obtain ⟨-, hcentre, hhigh⟩ := interval_ends hx
  have hscale : (0 : ℚ) < x.interval.scale := by exact_mod_cast x.interval_scale_pos
  have hquarter := x.quarter_pos
  have hpos : 0 < x.interval.centre := Nat.zero_lt_of_lt (interval_lt hx).1
  have hlead := log10Ratio_le hpos x.interval_scale_pos
  rw [hcentre, mul_div_cancel_right₀ _ hscale.ne'] at hlead
  have hsig : (x.significand : ℚ) < 16777216 := by exact_mod_cast x.significand_lt
  obtain ⟨k, hk⟩ : ∃ k, k = log10Ratio x.interval.centre x.interval.scale - 8 := ⟨_, rfl⟩
  have hstep : (10 : ℚ) ^ k < 2 * x.quarter := by
    rw [hk, zpow_sub₀ (by norm_num), div_lt_iff₀ (by positivity)]
    calc _ ≤ 4 * x.significand * x.quarter := hlead
      _ ≤ 4 * 16777216 * x.quarter := by gcongr
      _ < 2 * x.quarter * 10 ^ (8 : ℤ) := by
        norm_num
        linarith
  rw [← hk]
  apply Interval.best?_isSome
  have hfactor : (0 : ℚ) < Interval.factor k := by exact_mod_cast Interval.factor_pos k
  have hlt : (x.interval.centre * Interval.factor k + x.interval.unit k : ℚ) <
      x.interval.high * Interval.factor k := by
    rw [Interval.unit_eq, hcentre, hhigh]
    have := mul_lt_mul_of_pos_right hstep (mul_pos hscale hfactor)
    linarith
  exact_mod_cast hlt

/-- The shortest decimal of a number lies in its rounding interval. -/
theorem shortest_contains {x : Single} (hx : x.significand ≠ 0) :
    x.interval.Contains x.shortest.value := by
  rw [shortest, if_neg hx]
  dsimp only
  rw [Decimal.strip_value]
  apply Interval.search_contains (interval_lt hx).1 (interval_lt hx).2 x.interval_scale_pos
  have hcount (lead : ℤ) : lead - (1 + 8 : ℕ) + 1 = lead - 8 := by omega
  rw [hcount]
  exact best?_ninth hx

end Single

def AllDigits (cs : List Char) : Prop := ∀ c ∈ cs, c.isDigit

theorem isDigit_ne {c a : Char} (h : c.isDigit) (ha : ¬ a.isDigit) : c ≠ a := by
  rintro rfl
  exact ha h

theorem Mantissa.read_digits {ds cs : List Char} (m : Mantissa) (h : AllDigits ds) :
    m.read 10 (ds ++ cs) = Mantissa.read 10
      { value := Nat.ofDigitChars 10 ds m.value
        places := if m.point then m.places + ds.length else m.places
        point := m.point
        any := m.any || !ds.isEmpty } cs := by
  induction ds generalizing m with
  | nil => simp
  | cons c ds ih =>
    obtain ⟨hc, hds⟩ := List.forall_mem_cons.1 h
    rw [List.cons_append, Mantissa.read, if_neg (isDigit_ne hc (by decide)),
      if_neg (fun hp => isDigit_ne hc (by decide) hp.1)]
    simp only [baseDigit?, if_pos hc]
    rw [ih _ hds, Nat.ofDigitChars_cons, mul_comm]
    congr 2
    · split
      · simp only [List.length_cons]
        omega
      · rfl
    · simp

theorem splitBase_eq {cs : List Char} (h : ∀ c ∈ cs, c.toLower ≠ 'x') :
    splitBase cs = (false, cs) := by
  unfold splitBase
  split
  · rw [if_neg (h _ (by simp))]
  · rfl

theorem mem_point {front back : List Char} {c : Char} (hf : AllDigits front) (hb : AllDigits back)
    (hc : c ∈ front ++ '.' :: back) : c.isDigit ∨ c = '.' := by
  rw [List.mem_append, List.mem_cons] at hc
  rcases hc with hc | hc | hc
  · exact .inl (hf c hc)
  · exact .inr hc
  · exact .inl (hb c hc)

theorem toLower_of_isDigit {c : Char} (h : c.isDigit) : c.toLower = c := by
  unfold Char.toLower
  rw [dif_neg]
  intro hupper
  simp only [Char.isDigit, Bool.and_eq_true, decide_eq_true_eq] at h
  exact absurd (UInt32.le_trans hupper.1 h.2) (by decide)

theorem read_point {front back : List Char} (hfront : front ≠ []) (hf : AllDigits front)
    (hb : AllDigits back) :
    Mantissa.read 10 {} (front ++ '.' :: back) =
      ({ value := Nat.ofDigitChars 10 (front ++ back) 0
         places := back.length
         point := true
         any := true }, []) := by
  have hne : front.isEmpty = false := by simpa using hfront
  have hback := List.append_nil back
  rw [Mantissa.read_digits _ hf, Mantissa.read, if_neg (by decide), if_pos (by simp), ← hback,
    Mantissa.read_digits _ hb, Mantissa.read, hback, Nat.ofDigitChars_append]
  simp [hne]

theorem unsigned?_point {front back : List Char} (hfront : front ≠ []) (hf : AllDigits front)
    (hback : back ≠ []) (hb : AllDigits back)
    (hvalue : Nat.ofDigitChars 10 (front ++ back) 0 ≠ 0) :
    unsigned? false (front ++ '.' :: back) =
      Single.ofRatio? false (Nat.ofDigitChars 10 (front ++ back) 0) (10 ^ back.length) := by
  have hlower : ∀ c ∈ front ++ '.' :: back, c.toLower ≠ 'x' := by
    intro c hc
    rcases mem_point hf hb hc with h | rfl
    · rw [toLower_of_isDigit h]
      exact isDigit_ne h (by decide)
    · decide
  have hscore : ¬ (front ++ '.' :: back).contains '_' := by
    rw [List.contains_iff_mem]
    intro hc
    rcases mem_point hf hb hc with h | h
    · exact absurd h (by decide)
    · exact absurd h (by decide)
  have hlen : 0 < back.length := List.length_pos_iff.2 hback
  unfold unsigned?
  rw [splitBase_eq hlower]
  simp only [Bool.false_eq_true, if_false, read_point hfront hf hb, Bool.not_true, false_and,
    readExponent?, hscore, if_neg hvalue]
  rw [if_neg (by omega)]
  simp

theorem numeralStart_ne {c a : Char} (hc : c.isDigit ∨ c = '.') (ha : ¬ a.isDigit ∧ a ≠ '.') :
    c ≠ a := by
  rcases hc with hc | rfl
  · exact isDigit_ne hc ha.1
  · exact ha.2.symm

theorem splitSign_eq {c : Char} {cs : List Char} (hc : c.isDigit ∨ c = '.') :
    splitSign (c :: cs) = (false, c :: cs) := by
  unfold splitSign
  split
  case h_1 h =>
    cases h
    exact absurd rfl (numeralStart_ne hc (by decide))
  case h_2 h =>
    cases h
    exact absurd rfl (numeralStart_ne hc (by decide))
  · rfl

theorem lowered_ne {c a : Char} (cs ds : List Char) (hc : c.isDigit ∨ c = '.')
    (ha : ¬ a.isDigit ∧ a ≠ '.') :
    String.ofList ((c :: cs).map Char.toLower) ≠ String.ofList (a :: ds) := by
  have hlower : c.toLower = c := by
    rcases hc with hc | rfl
    · exact toLower_of_isDigit hc
    · rfl
  intro h
  have := congrArg String.toList h
  rw [String.toList_ofList, String.toList_ofList, List.map_cons, hlower] at this
  exact numeralStart_ne hc ha (List.cons.inj this).1

theorem Single.read?_of_split {c : Char} {cs ds : List Char} {negative : Bool}
    (hc : c.isDigit ∨ c = '.') (hs : splitSign ds = (negative, c :: cs)) :
    Single.read? ds = unsigned? negative (c :: cs) := by
  unfold Single.read?
  rw [hs]
  dsimp only
  rw [if_neg, if_neg]
  · rintro ⟨h, -⟩
    exact lowered_ne cs ['a', 'n'] hc (a := 'n') (by decide) h
  · rintro (h | h)
    · exact lowered_ne cs ['n', 'f'] hc (a := 'i') (by decide) h
    · exact lowered_ne cs ['n', 'f', 'i', 'n', 'i', 't', 'y'] hc (a := 'i') (by decide) h

theorem Single.read?_eq_unsigned? {c : Char} {cs : List Char} (hc : c.isDigit ∨ c = '.') :
    Single.read? (c :: cs) = unsigned? false (c :: cs) :=
  read?_of_split hc (splitSign_eq hc)

namespace Single

theorem e_mem_scientific {digits : List Char} (h : digits ≠ []) (lead : ℤ) :
    'e' ∈ scientific digits lead := by
  unfold scientific
  split
  · exact absurd rfl h
  · simp
  · simp

theorem positional_point {digits : List Char} {k : ℤ} (hne : digits ≠ []) (hall : AllDigits digits)
    (hdot : '.' ∈ positional digits (k + digits.length)) :
    ∃ front back, positional digits (k + digits.length) = front ++ '.' :: back ∧ front ≠ [] ∧
      AllDigits front ∧ back ≠ [] ∧ AllDigits back ∧
      Nat.ofDigitChars 10 (front ++ back) 0 = Nat.ofDigitChars 10 digits 0 ∧
      k = -back.length := by
  have hlen := List.length_pos_iff.2 hne
  have hzeros (m : ℕ) : AllDigits (List.replicate m '0') := by
    intro c hc
    rw [List.eq_of_mem_replicate hc]
    rfl
  unfold positional at hdot ⊢
  split at hdot
  case isTrue hpoint =>
    rw [if_pos hpoint]
    refine ⟨['0'], List.replicate (-(k + digits.length)).toNat '0' ++ digits, rfl, by simp,
      hzeros 1, by simp [hne], List.forall_mem_append.2 ⟨hzeros _, hall⟩, ?_, ?_⟩
    · rw [← List.append_assoc, Nat.ofDigitChars_append]
      congr 1
      rw [List.singleton_append, ← List.replicate_succ, Nat.ofDigitChars_replicate_zero, mul_zero]
    · rw [List.length_append, List.length_replicate]
      omega
  case isFalse hpoint =>
    rw [if_neg hpoint]
    split at hdot
    · exfalso
      have hmem := List.mem_append.1 hdot
      rcases hmem with hmem | hmem
      · exact absurd (hall _ hmem) (by decide)
      · exact absurd (hzeros _ _ hmem) (by decide)
    case isFalse hwhole =>
      rw [if_neg hwhole]
      refine ⟨digits.take (k + digits.length).toNat, digits.drop (k + digits.length).toNat, rfl,
        ?_, fun c hc => hall c (List.mem_of_mem_take hc), ?_,
        fun c hc => hall c (List.mem_of_mem_drop hc), by rw [List.take_append_drop], ?_⟩
      · simp [hne]
        omega
      · simp
        omega
      · rw [List.length_drop]
        omega

theorem decimalText_point {d : Decimal} (hdot : '.' ∈ decimalText d)
    (he : 'e' ∉ decimalText d) :
    ∃ front back, decimalText d = front ++ '.' :: back ∧ front ≠ [] ∧ AllDigits front ∧
      back ≠ [] ∧ AllDigits back ∧ Nat.ofDigitChars 10 (front ++ back) 0 = d.digits ∧
      d.exponent = -back.length ∧ d.digits ≠ 0 := by
  have hall : AllDigits (Nat.toDigits 10 d.digits) := fun c hc =>
    Nat.isDigit_of_mem_toDigits (by decide) (by decide) hc
  unfold decimalText at hdot he ⊢
  dsimp only at hdot he ⊢
  have hd : d.digits ≠ 0 := by
    intro hd
    rw [if_pos hd] at hdot
    simp at hdot
  rw [if_neg hd] at hdot he ⊢
  split at hdot
  case isTrue hsci =>
    rw [if_pos hsci] at he
    exact absurd (e_mem_scientific Nat.toDigits_ne_nil _) he
  case isFalse hsci =>
    rw [if_neg hsci]
    rw [sub_add_cancel] at hdot ⊢
    obtain ⟨front, back, htext, hfront, hf, hback, hb, hvalue, hk⟩ :=
      positional_point Nat.toDigits_ne_nil hall hdot
    rw [Nat.ofDigitChars_ten_toDigits] at hvalue
    exact ⟨front, back, htext, hfront, hf, hback, hb, hvalue, hk, hd⟩

theorem text_toList {x : Single} (hf : x.exponentField ≠ 255) (hx : ¬ x.negative) :
    x.text.toList = decimalText x.shortest := by
  rw [text, if_neg hf]
  dsimp only
  rw [if_neg hx, String.toList_ofList]

/-- The text of a finite number that is not negative reads back as the number, if it has a point
and no exponent. -/
theorem read?_text {x : Single} (hf : x.exponentField ≠ 255) (hx : ¬ x.negative)
    (hdot : '.' ∈ x.text.toList) (he : 'e' ∉ x.text.toList) :
    Single.read? x.text.toList = some x := by
  rw [text_toList hf hx] at hdot he ⊢
  obtain ⟨front, back, htext, hfront, hfd, hback, hbd, hvalue, hk, hd⟩ := decimalText_point hdot he
  have hsig : x.significand ≠ 0 := by
    intro h0
    rw [shortest, if_pos h0] at hd
    exact hd rfl
  have hcontains := shortest_contains hsig
  rw [Decimal.value, hk, zpow_neg, zpow_natCast, ← div_eq_mul_inv] at hcontains
  have hread : Single.read? (front ++ '.' :: back) = unsigned? false (front ++ '.' :: back) := by
    obtain ⟨c, cs, rfl⟩ := List.exists_cons_of_ne_nil hfront
    exact read?_eq_unsigned? (.inl (hfd c (List.mem_cons_self)))
  rw [htext, hread, unsigned?_point hfront hfd hback hbd (hvalue ▸ hd), hvalue]
  have hround := ofRatio?_of_contains (d := 10 ^ back.length) hf hsig (Nat.pow_pos (by decide))
    (by exact_mod_cast hcontains)
  rw [Bool.eq_false_iff.2 hx] at hround
  exact hround

end Single

end Reckon
