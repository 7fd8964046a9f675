import Mathlib
import Reckon.Assembly
import Reckon.Proofs.ShortestDecimal

namespace Reckon

open Assembly (withPoint)

def exponentPart : Option ℤ → List Char
  | none => []
  | some e => 'e' :: Single.exponentText e

/-- Digits on both sides of a point, perhaps an exponent, and the number that this writes. -/
structure Pointed (cs front back : List Char) (exponent : Option ℤ) (q : ℚ) : Prop where
  chars_eq : cs = front ++ '.' :: (back ++ exponentPart exponent)
  front_ne : front ≠ []
  front_digits : AllDigits front
  back_ne : back ≠ []
  back_digits : AllDigits back
  value_eq : q = Nat.ofDigitChars 10 (front ++ back) 0 * 10 ^ (exponent.getD 0 - back.length)

theorem allDigits_replicate (n : ℕ) : AllDigits (List.replicate n '0') := by
  intro c hc
  rw [List.eq_of_mem_replicate hc]
  rfl

theorem allDigits_toDigits (n : ℕ) : AllDigits (Nat.toDigits 10 n) := by
  intro c hc
  exact Nat.isDigit_of_mem_toDigits (by decide) (by decide) hc

theorem exponentText_eq (e : ℤ) : ∃ ds, ds ≠ [] ∧ AllDigits ds ∧
    Nat.ofDigitChars 10 ds 0 = e.natAbs ∧
    Single.exponentText e = (if e < 0 then '-' else '+') :: ds := by
  refine ⟨List.replicate (2 - (Nat.toDigits 10 e.natAbs).length) '0' ++ Nat.toDigits 10 e.natAbs,
    ?_, ?_, ?_, rfl⟩
  · simp [Nat.toDigits_ne_nil]
  · exact List.forall_mem_append.2 ⟨allDigits_replicate _, allDigits_toDigits _⟩
  · rw [Nat.ofDigitChars_append, Nat.ofDigitChars_replicate_zero, Nat.mul_zero,
      Nat.ofDigitChars_ten_toDigits]

theorem mem_exponentPart {c : Char} {exponent : Option ℤ} (h : c ∈ exponentPart exponent) :
    c.isDigit ∨ c ∈ ['e', '-', '+'] := by
  cases exponent with
  | none => cases h
  | some e =>
    obtain ⟨ds, -, hds, -, htext⟩ := exponentText_eq e
    rw [exponentPart, htext] at h
    rcases List.mem_cons.1 h with rfl | h
    · exact .inr (by simp)
    rcases List.mem_cons.1 h with rfl | h
    · right
      split <;> simp
    · exact .inl (hds c h)

theorem withPoint_of_mem {cs : List Char} (h : '.' ∈ cs) : withPoint cs = cs := by
  rw [withPoint, if_pos (List.contains_iff_mem.2 h)]

theorem withPoint_digits {ds : List Char} (hds : AllDigits ds) (exponent : Option ℤ) :
    withPoint (ds ++ exponentPart exponent) = ds ++ '.' :: '0' :: exponentPart exponent := by
  have hdot : '.' ∉ ds ++ exponentPart exponent := by
    intro h
    rcases List.mem_append.1 h with h | h
    · exact absurd (hds _ h) (by decide)
    · exact absurd (mem_exponentPart h) (by decide)
  have hmark : ∀ c ∈ ds, (!(decide (c = 'e') || decide (c = 'E'))) = true := by
    intro c hc
    simp [isDigit_ne (hds c hc) (a := 'e') (by decide),
      isDigit_ne (hds c hc) (a := 'E') (by decide)]
  have htake : (exponentPart exponent).takeWhile
      (fun c => !(decide (c = 'e') || decide (c = 'E'))) = [] := by
    cases exponent <;> rfl
  have hdrop : (exponentPart exponent).dropWhile
      (fun c => !(decide (c = 'e') || decide (c = 'E'))) = exponentPart exponent := by
    cases exponent <;> rfl
  rw [withPoint, if_neg (fun h => hdot (List.contains_iff_mem.1 h))]
  dsimp only
  rw [List.takeWhile_append_of_pos hmark, List.dropWhile_append_of_pos hmark, htake, hdrop,
    List.append_nil]

theorem pointed_digits (ds : List Char) (hne : ds ≠ []) (hds : AllDigits ds)
    (exponent : Option ℤ) : Pointed (withPoint (ds ++ exponentPart exponent)) ds ['0'] exponent
      (Nat.ofDigitChars 10 ds 0 * 10 ^ exponent.getD 0) := by
  refine ⟨withPoint_digits hds exponent, hne, hds, List.cons_ne_nil _ _, allDigits_replicate 1, ?_⟩
  rw [Nat.ofDigitChars_append, Nat.ofDigitChars_cons, Nat.ofDigitChars_nil]
  simp only [List.length_singleton, Nat.cast_one, zpow_sub_one₀ (by norm_num : (10 : ℚ) ≠ 0)]
  norm_num
  ring

theorem Pointed.of_value {cs front back : List Char} {exponent : Option ℤ} {q r : ℚ}
    (h : Pointed cs front back exponent q) (hq : q = r) : Pointed cs front back exponent r := hq ▸ h

namespace Single

theorem pointed_scientific {digits : List Char} (hne : digits ≠ []) (hall : AllDigits digits)
    (lead : ℤ) : ∃ front back, Pointed (withPoint (scientific digits lead)) front back (some lead)
      (Nat.ofDigitChars 10 digits 0 * 10 ^ (lead - digits.length + 1)) := by
  cases digits with
  | nil => exact absurd rfl hne
  | cons c ds =>
    obtain ⟨hc, hds⟩ := List.forall_mem_cons.1 hall
    cases ds with
    | nil =>
      refine ⟨_, _, (pointed_digits [c] hne hall (some lead)).of_value ?_⟩
      simp
    | cons c' ds =>
      have hdot : '.' ∈ scientific (c :: c' :: ds) lead := by simp [scientific]
      rw [withPoint_of_mem hdot]
      refine ⟨[c], c' :: ds, ?_, List.cons_ne_nil _ _, List.forall_mem_singleton.2 hc,
        List.cons_ne_nil _ _, hds, ?_⟩
      · simp [scientific, exponentPart]
      · simp only [List.singleton_append, List.length_cons, Option.getD_some]
        congr 2
        push_cast
        ring

theorem pointed_positional {digits : List Char} (hne : digits ≠ []) (hall : AllDigits digits)
    (k : ℤ) : ∃ front back, Pointed (withPoint (positional digits (k + digits.length))) front back
      none (Nat.ofDigitChars 10 digits 0 * 10 ^ k) := by
  by_cases hdot : '.' ∈ positional digits (k + digits.length)
  · obtain ⟨front, back, htext, hfront, hf, hback, hb, hvalue, hk⟩ := positional_point hne hall hdot
    rw [withPoint_of_mem hdot]
    refine ⟨front, back, ?_, hfront, hf, hback, hb, ?_⟩
    · rw [htext, exponentPart, List.append_nil]
    · rw [hvalue, hk, Option.getD_none, zero_sub]
  · unfold positional at hdot ⊢
    split at hdot
    · simp at hdot
    split at hdot
    case isTrue hpoint hwhole =>
      rw [if_neg hpoint, if_pos hwhole]
      obtain ⟨n, rfl⟩ := Int.eq_ofNat_of_zero_le (by omega : 0 ≤ k)
      have hn : ((n : ℤ) + digits.length).toNat - digits.length = n := by omega
      have hpad : AllDigits (digits ++ List.replicate n '0') :=
        List.forall_mem_append.2 ⟨hall, allDigits_replicate n⟩
      have h := pointed_digits _ (by simp [hne]) hpad none
      rw [exponentPart, List.append_nil] at h
      rw [hn]
      refine ⟨_, _, h.of_value ?_⟩
      rw [Nat.ofDigitChars_append, Nat.ofDigitChars_replicate_zero, Option.getD_none]
      push_cast
      rw [zpow_natCast]
      ring
    · simp at hdot

/-- How the text of a decimal looks once it has a point. An exponent is that of the leading
digit. -/
theorem pointed_decimalText (d : Decimal) : ∃ front back exponent,
    Pointed (withPoint (decimalText d)) front back exponent d.value ∧
      ∀ e, exponent = some e → e = d.exponent + digitCount d.digits - 1 := by
  have hall := allDigits_toDigits d.digits
  have hvalue : Nat.ofDigitChars 10 (Nat.toDigits 10 d.digits) 0 = d.digits :=
    Nat.ofDigitChars_ten_toDigits
  unfold decimalText
  dsimp only
  split
  case isTrue hd =>
    have h := pointed_digits ['0'] (by decide) (allDigits_replicate 1) none
    refine ⟨_, _, none, h.of_value ?_, by simp⟩
    simp [Decimal.value, hd, Nat.ofDigitChars_cons]
  split
  · obtain ⟨front, back, h⟩ := pointed_scientific Nat.toDigits_ne_nil hall
      (d.exponent + (Nat.toDigits 10 d.digits).length - 1)
    refine ⟨front, back, some _, h.of_value ?_, ?_⟩
    · rw [hvalue, Decimal.value]
      congr 2
      ring
    · rintro e ⟨⟩
      rfl
  · obtain ⟨front, back, h⟩ := pointed_positional Nat.toDigits_ne_nil hall d.exponent
    rw [sub_add_cancel]
    refine ⟨front, back, none, h.of_value ?_, by simp⟩
    rw [hvalue, Decimal.value]

end Single

theorem readExponentDigits_eq {ds : List Char} {n : ℕ} (hds : AllDigits ds)
    (h : Nat.ofDigitChars 10 ds n < 10000) :
    readExponentDigits n ds = (Nat.ofDigitChars 10 ds n, []) := by
  induction ds generalizing n with
  | nil => rfl
  | cons c ds ih =>
    obtain ⟨hc, hds⟩ := List.forall_mem_cons.1 hds
    have hn : n < 10000 := by
      rw [Nat.ofDigitChars_eq_ofDigitChars_zero] at h
      have := Nat.le_mul_of_pos_left n (Nat.pow_pos (n := (c :: ds).length) (by decide : 0 < 10))
      omega
    rw [Nat.ofDigitChars_cons, mul_comm] at h ⊢
    rw [readExponentDigits, if_neg (isDigit_ne hc (by decide)), if_pos hc, if_pos hn]
    exact ih hds h

theorem readExponent?_part {exponent : Option ℤ}
    (h : ∀ e, exponent = some e → e.natAbs < 10000) :
    readExponent? 'e' (exponentPart exponent) = some (exponent.getD 0, []) := by
  cases exponent with
  | none => rfl
  | some e =>
    have he := h e rfl
    obtain ⟨ds, hne, hds, hvalue, htext⟩ := exponentText_eq e
    rw [← hvalue] at he
    have hread := readExponentDigits_eq hds he
    have hsplit : splitSign ((if e < 0 then '-' else '+') :: ds) = (decide (e < 0), ds) := by
      by_cases hneg : e < 0 <;> simp [hneg, splitSign]
    rw [exponentPart, htext, readExponent?, if_pos (by decide)]
    simp only [hsplit]
    cases ds with
    | nil => exact absurd rfl hne
    | cons d ds =>
      simp only [hds d List.mem_cons_self, if_true, hread, hvalue, Option.getD_some,
        decide_eq_true_eq]
      congr 2
      split <;> omega

theorem Mantissa.read_exponentPart (m : Mantissa) (exponent : Option ℤ) :
    m.read 10 (exponentPart exponent) = (m, exponentPart exponent) := by
  cases exponent <;> rfl

namespace Pointed

variable {cs front back : List Char} {exponent : Option ℤ} {q : ℚ}

theorem read_mantissa (h : Pointed cs front back exponent q) :
    Mantissa.read 10 {} cs =
      ({ value := Nat.ofDigitChars 10 (front ++ back) 0
         places := back.length
         point := true
         any := true }, exponentPart exponent) := by
  have hne : front.isEmpty = false := by simpa using h.front_ne
  rw [h.chars_eq, Mantissa.read_digits _ h.front_digits, Mantissa.read, if_neg (by decide),
    if_pos (by simp), Mantissa.read_digits _ h.back_digits, Mantissa.read_exponentPart,
    Nat.ofDigitChars_append]
  simp [hne]

theorem mem (h : Pointed cs front back exponent q) {c : Char} (hc : c ∈ cs) :
    c.isDigit ∨ c ∈ ['.', 'e', '-', '+'] := by
  rw [h.chars_eq, List.mem_append, List.mem_cons, List.mem_append] at hc
  rcases hc with hc | rfl | hc | hc
  · exact .inl (h.front_digits c hc)
  · exact .inr List.mem_cons_self
  · exact .inl (h.back_digits c hc)
  · exact (mem_exponentPart hc).imp_right (List.mem_cons_of_mem _)

theorem unsigned?_eq (h : Pointed cs front back exponent q)
    (he : ∀ e, exponent = some e → e.natAbs < 10000) (negative : Bool) :
    unsigned? negative cs =
      let value := Nat.ofDigitChars 10 (front ++ back) 0
      let k := exponent.getD 0 - back.length
      if value = 0 then some (Single.ofMagnitude negative 0)
      else if 0 ≤ k then Single.ofRatio? negative (value * Nat.pow 10 k.toNat) 1
      else Single.ofRatio? negative value (Nat.pow 10 (-k).toNat) := by
  have hlower : ∀ c ∈ cs, c.toLower ≠ 'x' := by
    intro c hc
    rcases h.mem hc with hd | hd
    · rw [toLower_of_isDigit hd]
      exact isDigit_ne hd (by decide)
    · simp only [List.mem_cons, List.not_mem_nil, or_false] at hd
      rcases hd with rfl | rfl | rfl | rfl <;> decide
  have hscore : ¬ cs.contains '_' := by
    rw [List.contains_iff_mem]
    intro hc
    exact absurd (h.mem hc) (by decide)
  unfold unsigned?
  rw [splitBase_eq hlower]
  simp only [Bool.false_eq_true, if_false, h.read_mantissa, Bool.not_true, false_and,
    readExponent?_part he, hscore]

/-- A numeral is rounded as a ratio that equals the number it writes. -/
theorem unsigned?_ratio (h : Pointed cs front back exponent q)
    (he : ∀ e, exponent = some e → e.natAbs < 10000) (hq : q ≠ 0) (negative : Bool) :
    ∃ n d : ℕ, 0 < d ∧ (n : ℚ) / d = q ∧ unsigned? negative cs = Single.ofRatio? negative n d := by
  have hvalue : Nat.ofDigitChars 10 (front ++ back) 0 ≠ 0 := by
    intro h0
    apply hq
    rw [h.value_eq, h0, Nat.cast_zero, zero_mul]
  rw [h.unsigned?_eq he]
  dsimp only
  rw [if_neg hvalue]
  split
  case isTrue hk =>
    obtain ⟨n, hn⟩ := Int.eq_ofNat_of_zero_le hk
    refine ⟨_, 1, Nat.one_pos, ?_, rfl⟩
    rw [h.value_eq, hn]
    simp
  case isFalse hk =>
    obtain ⟨n, hn⟩ : ∃ n : ℕ, exponent.getD 0 - back.length = -(n : ℤ) :=
      ⟨(-(exponent.getD 0 - back.length)).toNat, by omega⟩
    refine ⟨_, _, Nat.pow_pos (by decide), ?_, rfl⟩
    rw [h.value_eq, hn]
    simp [div_eq_mul_inv]

end Pointed

theorem Decimal.value_bounds {d : Decimal} (hd : d.digits ≠ 0) :
    (10 : ℚ) ^ (d.exponent + digitCount d.digits - 1) ≤ d.value ∧
      d.value < 10 ^ (d.exponent + digitCount d.digits) := by
  have hpos : 0 < digitCount d.digits := Nat.length_toDigits_pos
  obtain ⟨n, hn⟩ : ∃ n, digitCount d.digits = n + 1 := ⟨digitCount d.digits - 1, by omega⟩
  have hlow := pow_le_of_digitCount hd
  have hhigh := lt_pow_digitCount d.digits
  have hten : (0 : ℚ) < 10 ^ d.exponent := by positivity
  rw [hn] at hlow hhigh ⊢
  rw [Nat.add_sub_cancel] at hlow
  have hlow' : (10 : ℚ) ^ n ≤ d.digits := by exact_mod_cast hlow
  have hhigh' : (d.digits : ℚ) < 10 ^ (n + 1) := by exact_mod_cast hhigh
  have hsplit (k : ℕ) : (10 : ℚ) ^ (d.exponent + k) = 10 ^ k * 10 ^ d.exponent := by
    rw [zpow_add₀ (by norm_num), zpow_natCast, mul_comm]
  rw [Decimal.value, Nat.cast_add, Nat.cast_one, ← add_assoc, add_sub_cancel_right, hsplit,
    add_assoc, ← Nat.cast_one, ← Nat.cast_add, hsplit]
  constructor
  · gcongr
  · gcongr

namespace Single

variable {x : Single}

theorem two_quarters_le (hx : x.significand ≠ 0) : 2 * x.quarter ≤ x.shortest.value := by
  obtain ⟨hlow, -, -⟩ := bounds_of_contains hx (shortest_contains hx)
  have hm : (1 : ℚ) ≤ x.significand := by exact_mod_cast Nat.one_le_iff_ne_zero.2 hx
  have hbelow : (x.below : ℚ) ≤ 2 := by
    unfold below
    split <;> norm_num
  refine le_trans (mul_le_mul_of_nonneg_right ?_ x.quarter_pos.le) hlow
  linarith

theorem digits_ne_zero (hx : x.significand ≠ 0) : x.shortest.digits ≠ 0 := by
  intro h0
  have hlow := two_quarters_le hx
  have hquarter := x.quarter_pos
  rw [Decimal.value, h0, Nat.cast_zero, zero_mul] at hlow
  linarith

theorem shortest_bounds (hf : x.exponentField ≠ 255) (hx : x.significand ≠ 0) :
    (10 : ℚ) ^ (-50 : ℤ) < x.shortest.value ∧ x.shortest.value < 10 ^ (40 : ℤ) := by
  obtain ⟨-, hhigh, -⟩ := bounds_of_contains hx (shortest_contains hx)
  have hfield := x.exponentField_lt
  have hexponent : -149 ≤ x.exponent ∧ x.exponent ≤ 104 := by
    simp only [exponent]
    split <;> omega
  have hm : (x.significand : ℚ) < 16777216 := by exact_mod_cast x.significand_lt
  have hquarter := x.quarter_pos
  have hsmall : (2 : ℚ) ^ (-151 : ℤ) ≤ x.quarter :=
    zpow_le_zpow_right₀ (by norm_num) (by omega)
  have hlarge : x.quarter ≤ (2 : ℚ) ^ (102 : ℤ) := zpow_le_zpow_right₀ (by norm_num) (by omega)
  constructor
  · calc (10 : ℚ) ^ (-50 : ℤ) < 2 * 2 ^ (-151 : ℤ) := by norm_num
      _ ≤ 2 * x.quarter := by gcongr
      _ ≤ _ := two_quarters_le hx
  · calc x.shortest.value ≤ (4 * x.significand + 2) * x.quarter := hhigh
      _ ≤ (4 * 16777216 + 2) * 2 ^ (102 : ℤ) := by gcongr
      _ < _ := by norm_num

theorem lead_bounds (hf : x.exponentField ≠ 255) (hx : x.significand ≠ 0) :
    -50 ≤ x.shortest.exponent + digitCount x.shortest.digits - 1 ∧
      x.shortest.exponent + digitCount x.shortest.digits - 1 < 40 := by
  obtain ⟨hlow, hhigh⟩ := shortest_bounds hf hx
  obtain ⟨hle, hlt⟩ := Decimal.value_bounds (digits_ne_zero hx)
  have hten : (1 : ℚ) < 10 := by norm_num
  have h₁ := (zpow_lt_zpow_iff_right₀ hten).1 (hlow.trans hlt)
  have h₂ := (zpow_lt_zpow_iff_right₀ hten).1 (hle.trans_lt hhigh)
  omega

theorem shortest_of_zero (hx : x.significand = 0) : x.shortest = ⟨0, 0⟩ := by
  rw [shortest, if_pos hx]

theorem pointed_shortest (hf : x.exponentField ≠ 255) : ∃ front back exponent,
    Pointed (withPoint (decimalText x.shortest)) front back exponent x.shortest.value ∧
      ∀ e, exponent = some e → e.natAbs < 10000 := by
  by_cases hx : x.significand = 0
  · rw [shortest_of_zero hx]
    have h := pointed_digits ['0'] (by decide) (allDigits_replicate 1) none
    refine ⟨_, _, none, h.of_value ?_, by simp⟩
    simp [Decimal.value, Nat.ofDigitChars_cons]
  · obtain ⟨front, back, exponent, h, he⟩ := pointed_decimalText x.shortest
    refine ⟨front, back, exponent, h, ?_⟩
    intro e hsome
    have hbounds := lead_bounds hf hx
    rw [← he e hsome] at hbounds
    omega

theorem unsigned?_shortest (hf : x.exponentField ≠ 255) :
    unsigned? x.negative (withPoint (decimalText x.shortest)) = some x := by
  obtain ⟨front, back, exponent, h, he⟩ := pointed_shortest hf
  by_cases hx : x.significand = 0
  · have hvalue : Nat.ofDigitChars 10 (front ++ back) 0 = 0 := by
      have hq := h.value_eq
      rw [shortest_of_zero hx, Decimal.value, Nat.cast_zero, zero_mul] at hq
      have hten : (0 : ℚ) < 10 ^ (exponent.getD 0 - back.length) := by positivity
      exact_mod_cast (mul_eq_zero.1 hq.symm).resolve_right hten.ne'
    have hmagnitude : x.magnitude = 0 := by
      simp only [significand, Nat.pow_eq] at hx
      simp only [magnitude, Nat.pow_eq]
      split at hx <;> omega
    rw [h.unsigned?_eq he]
    dsimp only
    rw [if_pos hvalue, ← hmagnitude, ofMagnitude_magnitude]
  · have hne : x.shortest.value ≠ 0 := ((by positivity : (0 : ℚ) < 10 ^ (-50 : ℤ)).trans
      (shortest_bounds hf hx).1).ne'
    obtain ⟨n, d, hd, hq, hread⟩ := h.unsigned?_ratio he hne x.negative
    rw [hread]
    apply ofRatio?_of_contains hf hx hd
    rw [hq]
    exact shortest_contains hx

theorem toList_text (hf : x.exponentField ≠ 255) : x.text.toList =
    if x.negative then '-' :: decimalText x.shortest else decimalText x.shortest := by
  rw [text, if_neg hf, String.toList_ofList]

theorem withPoint_minus (cs : List Char) : withPoint ('-' :: cs) = '-' :: withPoint cs := by
  unfold withPoint
  by_cases h : '.' ∈ cs <;> simp [h]

/-- The text of a finite number reads back as the number once it has a point. -/
theorem read?_withPoint (hf : x.exponentField ≠ 255) :
    Single.read? (withPoint x.text.toList) = some x := by
  have hread := unsigned?_shortest hf
  obtain ⟨front, back, exponent, h, -⟩ := pointed_shortest hf
  obtain ⟨c, ds, hfront⟩ := List.exists_cons_of_ne_nil h.front_ne
  have hc : c.isDigit := h.front_digits c (hfront ▸ List.mem_cons_self)
  have htext : withPoint (decimalText x.shortest) =
      c :: (ds ++ '.' :: (back ++ exponentPart exponent)) := by
    rw [h.chars_eq, hfront, List.cons_append]
  rw [toList_text hf]
  split
  case isTrue hneg =>
    rw [withPoint_minus]
    rw [htext, hneg] at hread
    rw [htext, read?_of_split (.inl hc) rfl, hread]
  case isFalse hpos =>
    rw [htext, Bool.eq_false_iff.2 hpos] at hread
    rw [htext, read?_eq_unsigned? (.inl hc), hread]

end Single

section Length

theorem length_withPoint (cs : List Char) : (withPoint cs).length ≤ cs.length + 2 := by
  unfold withPoint
  split
  · omega
  · dsimp only
    have h := congrArg List.length
      (List.takeWhile_append_dropWhile (p := fun c => !(decide (c = 'e') || decide (c = 'E')))
        (l := cs))
    simp only [List.length_append, List.length_cons] at h ⊢
    omega

theorem Interval.search_exponent (i : Interval) (lead : ℤ) (count fuel : ℕ) :
    lead - count - fuel + 1 ≤ (i.search lead count fuel).exponent := by
  induction fuel generalizing count with
  | zero =>
    rw [search]
    push_cast
    omega
  | succ fuel ih =>
    rw [search]
    split
    · push_cast
      omega
    · have := ih (count + 1)
      push_cast at this ⊢
      omega

theorem Decimal.exponent_le_strip (d : Decimal) : d.exponent ≤ d.strip.exponent := by
  induction d using Decimal.strip.induct with
  | case1 d h ih =>
    rw [strip.eq_def, dif_pos h]
    dsimp only at ih
    omega
  | case2 d h => rw [strip.eq_def, dif_neg h]

theorem log10Ratio_ge (n : ℕ) {d k : ℕ} (hk : 0 < k) (hd : d ≤ 10 ^ k) :
    -(k : ℤ) ≤ log10Ratio n d := by
  unfold log10Ratio
  split
  · omega
  · have hlt : (d - 1) / n < 10 ^ k := by
      have := Nat.div_le_self (d - 1) n
      have := Nat.pow_pos (n := k) (by decide : 0 < 10)
      omega
    have hle := (Nat.length_toDigits_le_iff (by decide) hk).2 hlt
    change digitCount _ ≤ k at hle
    omega

namespace Single

variable {x : Single}

theorem shortest_exponent_ge (x : Single) : -58 ≤ x.shortest.exponent := by
  have hscale : x.interval.scale ≤ 10 ^ 50 := by
    simp only [interval]
    split
    · norm_num
    · have he : (-(x.exponent - 2)).toNat ≤ 151 := by
        simp only [exponent]
        split <;> omega
      calc Nat.pow 2 (-(x.exponent - 2)).toNat ≤ 2 ^ 151 := Nat.pow_le_pow_right (by decide) he
        _ ≤ 10 ^ 50 := by norm_num
  rw [shortest]
  split
  · decide
  · have hlead := log10Ratio_ge x.interval.centre (by decide) hscale
    have hsearch := x.interval.search_exponent
      (log10Ratio x.interval.centre x.interval.scale) 1 8
    have hstrip := Decimal.exponent_le_strip
      (x.interval.search (log10Ratio x.interval.centre x.interval.scale) 1 8)
    dsimp only
    omega

theorem length_exponentText {e : ℤ} (he : e.natAbs < 10000) : (exponentText e).length ≤ 5 := by
  have hlen := (Nat.length_toDigits_le_iff (b := 10) (k := 4) (by decide) (by decide)).2 he
  simp only [exponentText, List.length_append, List.length_cons, List.length_replicate]
  omega

theorem length_scientific (digits : List Char) (lead : ℤ) :
    (scientific digits lead).length ≤ digits.length + (exponentText lead).length + 2 := by
  unfold scientific
  split
  · simp
  · simp only [List.length_cons, List.length_nil]
    omega
  · simp only [List.length_append, List.length_cons]
    omega

theorem length_positional (digits : List Char) {point : ℤ} (hlow : -3 ≤ point)
    (hhigh : point ≤ 6) : (positional digits point).length ≤ digits.length + 6 := by
  unfold positional
  split
  · simp only [List.length_append, List.length_cons, List.length_replicate]
    omega
  split
  · simp only [List.length_append, List.length_replicate]
    omega
  · simp only [List.length_append, List.length_cons, List.length_take, List.length_drop]
    omega

theorem length_decimalText {d : Decimal}
    (h : (d.exponent + digitCount d.digits - 1).natAbs < 10000) :
    (decimalText d).length ≤ digitCount d.digits + 7 := by
  unfold digitCount at h ⊢
  unfold decimalText
  dsimp only
  split
  · simp
  split
  · have hscientific := length_scientific (Nat.toDigits 10 d.digits)
      (d.exponent + (Nat.toDigits 10 d.digits).length - 1)
    have hexponent := length_exponentText h
    omega
  · have hpositional : (positional (Nat.toDigits 10 d.digits)
        (d.exponent + (Nat.toDigits 10 d.digits).length - 1 + 1)).length ≤ _ :=
      length_positional _ (by omega) (by omega)
    omega

theorem length_text (hf : x.exponentField ≠ 255) : x.text.toList.length ≤ 110 := by
  have hbody : (decimalText x.shortest).length ≤ 105 := by
    by_cases hx : x.significand = 0
    · rw [shortest_of_zero hx]
      decide
    · have hlead := lead_bounds hf hx
      have hexponent := x.shortest_exponent_ge
      have hlen := length_decimalText (d := x.shortest) (by omega)
      omega
  rw [toList_text hf]
  split
  · rw [List.length_cons]
    omega
  · omega

end Single

end Length

end Reckon
