import Mathlib
import Reckon.Number.Shortest

namespace Reckon

theorem scaleRatio_pos {n d : ℕ} (hd : 0 < d) (e : ℤ) : 0 < (scaleRatio n d e).2 := by
  unfold scaleRatio
  split
  · exact Nat.mul_pos hd (Nat.pow_pos (by decide))
  · exact hd

theorem scaleRatio_eq (n d : ℕ) (e : ℤ) :
    ((scaleRatio n d e).1 : ℚ) / (scaleRatio n d e).2 = (n : ℚ) / d / 2 ^ e := by
  unfold scaleRatio
  split
  case isTrue he =>
    obtain ⟨k, rfl⟩ := Int.eq_ofNat_of_zero_le he
    simp only [Int.toNat_natCast, Nat.pow_eq, Nat.cast_mul, Nat.cast_pow, Nat.cast_ofNat,
      zpow_natCast, div_div]
  case isFalse he =>
    obtain ⟨k, rfl⟩ : ∃ k : ℕ, e = -(k : ℤ) := ⟨(-e).toNat, by omega⟩
    simp only [neg_neg, Int.toNat_natCast, Nat.pow_eq, Nat.cast_mul, Nat.cast_pow,
      Nat.cast_ofNat, zpow_neg, zpow_natCast, div_inv_eq_mul]
    ring

/-- A ratio at most half away from a whole number, and just half only from an even one, is rounded
to it. -/
theorem roundDiv_eq {n d m : ℕ} (hd : 0 < d) (hlow : 2 * (m * d) ≤ 2 * n + d)
    (hhigh : 2 * n ≤ 2 * (m * d) + d)
    (htie : 2 * (m * d) = 2 * n + d ∨ 2 * n = 2 * (m * d) + d → m % 2 = 0) :
    roundDiv n d = m := by
  have hdiv : n / d * d + n % d = n := Nat.div_add_mod' n d
  have hmod : n % d < d := Nat.mod_lt n hd
  have hge : n / d ≤ m := by
    by_contra hlt
    have : (m + 1) * d ≤ n / d * d := Nat.mul_le_mul_right d (by omega)
    rw [Nat.add_mul] at this
    omega
  have hle : m ≤ n / d + 1 := by
    by_contra hlt
    have : (n / d + 2) * d ≤ m * d := Nat.mul_le_mul_right d (by omega)
    rw [Nat.add_mul] at this
    omega
  unfold roundDiv
  dsimp only
  obtain rfl | rfl : m = n / d ∨ m = n / d + 1 := by omega
  · rw [if_neg]
    omega
  · rw [Nat.add_mul] at hlow hhigh htie
    rw [if_pos]
    omega

theorem roundDiv_of_near {n d m : ℕ} (hd : 0 < d) (hlow : (m : ℚ) - 1 / 2 ≤ (n : ℚ) / d)
    (hhigh : (n : ℚ) / d ≤ m + 1 / 2)
    (htie : (n : ℚ) / d = m - 1 / 2 ∨ (n : ℚ) / d = m + 1 / 2 → m % 2 = 0) :
    roundDiv n d = m := by
  have hd' : (0 : ℚ) < d := by exact_mod_cast hd
  rw [le_div_iff₀ hd'] at hlow
  rw [div_le_iff₀ hd'] at hhigh
  rw [div_eq_iff hd'.ne', div_eq_iff hd'.ne'] at htie
  apply roundDiv_eq hd
  · have : (2 * (m * d) : ℚ) ≤ 2 * n + d := by linarith
    exact_mod_cast this
  · have : (2 * n : ℚ) ≤ 2 * (m * d) + d := by linarith
    exact_mod_cast this
  · intro h
    apply htie
    rcases h with h | h
    · left
      have : (2 * (m * d) : ℚ) = 2 * n + d := by exact_mod_cast h
      linarith
    · right
      have : (2 * n : ℚ) = 2 * (m * d) + d := by exact_mod_cast h
      linarith

theorem log2Ratio_spec {n d : ℕ} (hn : 0 < n) (hd : 0 < d) :
    (2 : ℚ) ^ log2Ratio n d ≤ n / d ∧ (n : ℚ) / d < 2 ^ (log2Ratio n d + 1) := by
  have hd' : (0 : ℚ) < d := by exact_mod_cast hd
  have hdlow : (2 : ℚ) ^ (d.log2 : ℤ) ≤ d := by exact_mod_cast Nat.log2_self_le hd.ne'
  have hdhigh : (d : ℚ) < 2 ^ (d.log2 + 1 : ℤ) := by exact_mod_cast Nat.lt_log2_self
  have hnlow : (2 : ℚ) ^ (n.log2 : ℤ) ≤ n := by exact_mod_cast Nat.log2_self_le hn.ne'
  have hnhigh : (n : ℚ) < 2 ^ (n.log2 + 1 : ℤ) := by exact_mod_cast Nat.lt_log2_self
  obtain ⟨k, hk⟩ : ∃ k : ℤ, k = n.log2 - d.log2 := ⟨_, rfl⟩
  have hn : (n.log2 : ℤ) = k + d.log2 := by omega
  rw [hn] at hnlow hnhigh
  have htwo : (2 : ℚ) ≠ 0 := by norm_num
  have hpos : (0 : ℚ) < 2 ^ k := by positivity
  have hlow : (2 : ℚ) ^ (k - 1) < n / d := by
    rw [lt_div_iff₀ hd']
    calc (2 : ℚ) ^ (k - 1) * d < 2 ^ (k - 1) * 2 ^ (d.log2 + 1 : ℤ) := by gcongr
      _ = 2 ^ (k + d.log2 : ℤ) := by rw [← zpow_add₀ htwo]; congr 1; ring
      _ ≤ n := hnlow
  have hhigh : (n : ℚ) / d < 2 ^ (k + 1) := by
    rw [div_lt_iff₀ hd']
    calc (n : ℚ) < 2 ^ (k + d.log2 + 1 : ℤ) := hnhigh
      _ = 2 ^ (k + 1) * 2 ^ (d.log2 : ℤ) := by rw [← zpow_add₀ htwo]; congr 1; ring
      _ ≤ 2 ^ (k + 1) * d := by gcongr
  -- The estimate by the bit lengths is right or one too large, which one comparison decides.
  have hscaled := scaleRatio_eq n d k
  have hscale : (0 : ℚ) < (scaleRatio n d k).2 := by exact_mod_cast scaleRatio_pos hd k
  unfold log2Ratio
  rw [← hk]
  dsimp only
  split
  case isTrue hle =>
    have hone : (1 : ℚ) ≤ (scaleRatio n d k).1 / (scaleRatio n d k).2 := by
      rw [one_le_div hscale]
      exact_mod_cast hle
    rw [hscaled, one_le_div hpos] at hone
    exact ⟨hone, hhigh⟩
  case isFalse hlt =>
    have hone : ((scaleRatio n d k).1 : ℚ) / (scaleRatio n d k).2 < 1 := by
      rw [div_lt_one hscale]
      exact_mod_cast not_le.1 hlt
    rw [hscaled, div_lt_one hpos] at hone
    rw [sub_add_cancel]
    exact ⟨hlow.le, hone⟩

theorem log2Ratio_eq {n d : ℕ} {j : ℤ} (hn : 0 < n) (hd : 0 < d) (hlow : (2 : ℚ) ^ j ≤ n / d)
    (hhigh : (n : ℚ) / d < 2 ^ (j + 1)) : log2Ratio n d = j := by
  obtain ⟨hle, hlt⟩ := log2Ratio_spec hn hd
  have h₁ := (zpow_lt_zpow_iff_right₀ (by norm_num : (1 : ℚ) < 2)).1 (hle.trans_lt hhigh)
  have h₂ := (zpow_lt_zpow_iff_right₀ (by norm_num : (1 : ℚ) < 2)).1 (hlow.trans_lt hlt)
  omega

def Interval.Contains (i : Interval) (q : ℚ) : Prop :=
  if i.closed then (i.low : ℚ) ≤ q * i.scale ∧ q * i.scale ≤ i.high
  else (i.low : ℚ) < q * i.scale ∧ q * i.scale < i.high

namespace Single

def magnitude (x : Single) : ℕ := x.exponentField * Nat.pow 2 23 + x.fractionField

theorem fractionField_lt (x : Single) : x.fractionField < 8388608 :=
  Nat.mod_lt _ (by decide)

theorem exponentField_lt (x : Single) : x.exponentField < 256 :=
  Nat.mod_lt _ (by decide)

theorem significand_lt (x : Single) : x.significand < 16777216 := by
  have hfrac := x.fractionField_lt
  simp only [significand, Nat.pow_eq]
  split <;> omega

theorem ofMagnitude_magnitude (x : Single) : ofMagnitude x.negative x.magnitude = x := by
  have hbits := x.bits.toNat_lt
  have hsign : (if x.negative then x.magnitude + Nat.pow 2 31 else x.magnitude) = x.bits.toNat := by
    simp only [negative, magnitude, exponentField, fractionField, Nat.pow_eq, decide_eq_true_eq]
    split <;> omega
  rw [ofMagnitude, hsign, UInt32.ofNat_toNat]

theorem magnitude_eq (x : Single) :
    x.magnitude = (x.exponent + 149).toNat * Nat.pow 2 23 + x.significand := by
  simp only [magnitude, exponent, significand, Nat.pow_eq]
  split
  case isTrue h =>
    simp [h]
  case isFalse h =>
    have : ((x.exponentField : ℤ) - 150 + 149).toNat = x.exponentField - 1 := by omega
    rw [this]
    omega

def quarter (x : Single) : ℚ := 2 ^ (x.exponent - 2)

/-- How many quarters the lower end of the interval is away from the number. -/
def below (x : Single) : ℕ := if x.fractionField = 0 ∧ 1 < x.exponentField then 1 else 2

theorem below_le (x : Single) : (x.below : ℚ) ≤ 2 := by
  unfold below
  split <;> norm_num

theorem interval_scale_pos (x : Single) : 0 < x.interval.scale := by
  simp only [interval]
  split
  · exact Nat.one_pos
  · exact Nat.pow_pos (by decide)

theorem unit_eq (e : ℤ) : ((if 0 ≤ e then Nat.pow 2 e.toNat else 1 : ℕ) : ℚ) =
    2 ^ e * (if 0 ≤ e then 1 else Nat.pow 2 (-e).toNat : ℕ) := by
  split
  case isTrue he =>
    obtain ⟨k, rfl⟩ := Int.eq_ofNat_of_zero_le he
    simp
  case isFalse he =>
    obtain ⟨k, rfl⟩ : ∃ k : ℕ, e = -(k : ℤ) := ⟨(-e).toNat, by omega⟩
    simp

theorem interval_ends {x : Single} (hx : x.significand ≠ 0) :
    (x.interval.low : ℚ) = (4 * x.significand - x.below) * x.quarter * x.interval.scale ∧
    (x.interval.centre : ℚ) = 4 * x.significand * x.quarter * x.interval.scale ∧
    (x.interval.high : ℚ) = (4 * x.significand + 2) * x.quarter * x.interval.scale := by
  have hunit := unit_eq (x.exponent - 2)
  have hlow : ((if x.fractionField = 0 ∧ 1 < x.exponentField then 4 * x.significand - 1
      else 4 * x.significand - 2 : ℕ) : ℚ) = 4 * x.significand - x.below := by
    unfold below
    split
    · rw [Nat.cast_sub (by omega)]
      push_cast
      ring
    · rw [Nat.cast_sub (by omega)]
      push_cast
      ring
  simp only [interval, quarter]
  refine ⟨?_, ?_, ?_⟩
  · rw [Nat.cast_mul, hlow, hunit, mul_assoc]
  · rw [Nat.cast_mul, hunit]
    push_cast
    ring
  · rw [Nat.cast_mul, hunit]
    push_cast
    ring

theorem quarter_pos (x : Single) : 0 < x.quarter := by
  unfold quarter
  positivity

/-- The interval in quarters: its ends belong to it only if the significand is even. -/
theorem bounds_of_contains {x : Single} {q : ℚ} (hx : x.significand ≠ 0)
    (h : x.interval.Contains q) :
    (4 * x.significand - x.below) * x.quarter ≤ q ∧ q ≤ (4 * x.significand + 2) * x.quarter ∧
      (q = (4 * x.significand - x.below) * x.quarter ∨ q = (4 * x.significand + 2) * x.quarter →
        x.significand % 2 = 0) := by
  obtain ⟨hlow, -, hhigh⟩ := interval_ends hx
  have hscale : (0 : ℚ) < x.interval.scale := by exact_mod_cast x.interval_scale_pos
  unfold Interval.Contains at h
  rw [hlow, hhigh] at h
  split at h
  case isTrue hclosed =>
    have heven : x.significand % 2 = 0 := by simpa [interval] using hclosed
    exact ⟨le_of_mul_le_mul_right h.1 hscale, le_of_mul_le_mul_right h.2 hscale, fun _ => heven⟩
  · have h₁ := lt_of_mul_lt_mul_right h.1 hscale.le
    have h₂ := lt_of_mul_lt_mul_right h.2 hscale.le
    refine ⟨h₁.le, h₂.le, ?_⟩
    rintro (h | h)
    · exact absurd h h₁.ne'
    · exact absurd h h₂.ne

theorem magnitudeOfRatio_of_near {n d r : ℕ} {e : ℤ} (hn : 0 < n) (hd : 0 < d)
    (he : max (log2Ratio n d - 23) (-149) = e) (hlow : (r - 1 / 2) * 2 ^ e ≤ (n : ℚ) / d)
    (hhigh : (n : ℚ) / d ≤ (r + 1 / 2) * 2 ^ e)
    (htie : (n : ℚ) / d = (r - 1 / 2) * 2 ^ e ∨ (n : ℚ) / d = (r + 1 / 2) * 2 ^ e → r % 2 = 0) :
    magnitudeOfRatio n d = (e + 149).toNat * Nat.pow 2 23 + r := by
  have hpos : (0 : ℚ) < 2 ^ e := by positivity
  have hround : roundDiv (scaleRatio n d e).1 (scaleRatio n d e).2 = r := by
    apply roundDiv_of_near (scaleRatio_pos hd e)
    · rw [scaleRatio_eq, le_div_iff₀ hpos]
      exact hlow
    · rw [scaleRatio_eq, div_le_iff₀ hpos]
      exact hhigh
    · rw [scaleRatio_eq, div_eq_iff hpos.ne', div_eq_iff hpos.ne']
      exact htie
  unfold magnitudeOfRatio
  rw [if_neg hn.ne']
  simp only [he, hround]

theorem two_zpow_exponent (x : Single) (k : ℤ) :
    (2 : ℚ) ^ (x.exponent + k) = 2 ^ (k + 2) * x.quarter := by
  rw [quarter, ← zpow_add₀ (by norm_num)]
  congr 1
  ring

theorem log2Ratio_lt {n d : ℕ} {j : ℤ} (hn : 0 < n) (hd : 0 < d) (h : (n : ℚ) / d < 2 ^ j) :
    log2Ratio n d < j :=
  (zpow_lt_zpow_iff_right₀ (by norm_num : (1 : ℚ) < 2)).1 ((log2Ratio_spec hn hd).1.trans_lt h)

section Contains

variable {x : Single} {n d : ℕ}

theorem low_pos (hx : x.significand ≠ 0) : 0 < (4 * x.significand - x.below) * x.quarter := by
  have hm : (1 : ℚ) ≤ x.significand := by exact_mod_cast Nat.one_le_iff_ne_zero.2 hx
  have hbelow := x.below_le
  apply mul_pos _ x.quarter_pos
  linarith

theorem pos_of_contains (hx : x.significand ≠ 0) (h : x.interval.Contains (n / d)) : 0 < n := by
  obtain ⟨hlow, -, -⟩ := bounds_of_contains hx h
  have hpos := low_pos hx
  apply Nat.pos_of_ne_zero
  rintro rfl
  rw [Nat.cast_zero, zero_div] at hlow
  linarith

/-- Just below a power of two the numbers lie twice as close. -/
theorem magnitudeOfRatio_of_narrow (hx : x.fractionField = 0 ∧ 1 < x.exponentField) (hd : 0 < d)
    (h : x.interval.Contains (n / d)) : magnitudeOfRatio n d = x.magnitude := by
  have hfield : x.exponentField ≠ 0 := by omega
  have hm : x.significand = 8388608 := by simp [significand, hfield, hx.1]
  have he : -149 < x.exponent := by
    simp only [exponent, if_neg hfield]
    omega
  have hn := pos_of_contains (by omega) h
  obtain ⟨hlow, hhigh, -⟩ := bounds_of_contains (by omega) h
  have hquarter := x.quarter_pos
  have h24 := x.two_zpow_exponent 24
  have h23 := x.two_zpow_exponent 23
  have h22 := x.two_zpow_exponent 22
  have h0 := x.two_zpow_exponent 0
  have h1 := x.two_zpow_exponent (-1)
  norm_num at h24 h23 h22 h0 h1
  simp only [hm, below, if_pos hx] at hlow hhigh
  norm_num at hlow hhigh
  rcases le_or_gt ((2 : ℚ) ^ (x.exponent + 23)) (n / d) with hup | hdown
  · have hlog : log2Ratio n d = x.exponent + 23 := by
      apply log2Ratio_eq hn hd hup
      rw [add_assoc]
      norm_num
      rw [h24]
      linarith
    rw [magnitudeOfRatio_of_near (r := 8388608) (e := x.exponent) hn hd, magnitude_eq, hm]
    · omega
    · rw [h0]
      norm_num
      linarith
    · rw [h0]
      norm_num
      linarith
    · intro _
      rfl
  · have hlog : log2Ratio n d = x.exponent + 22 := by
      apply log2Ratio_eq hn hd
      · rw [h22]
        linarith
      · rw [add_assoc]
        norm_num
        exact hdown
    rw [magnitudeOfRatio_of_near (r := 16777216) (e := x.exponent + -1) hn hd, magnitude_eq, hm]
    · simp only [Nat.pow_eq]
      omega
    · omega
    · rw [h1]
      norm_num
      linarith
    · rw [h1]
      rw [h23] at hdown
      norm_num
      linarith
    · intro _
      rfl

theorem exponent_of_wide (hx : ¬ (x.fractionField = 0 ∧ 1 < x.exponentField))
    (hx0 : x.significand ≠ 0) (hd : 0 < d) (h : x.interval.Contains (n / d)) :
    max (log2Ratio n d - 23) (-149) = x.exponent := by
  have hn := pos_of_contains hx0 h
  obtain ⟨hlow, hhigh, -⟩ := bounds_of_contains hx0 h
  have hquarter := x.quarter_pos
  have h24 := x.two_zpow_exponent 24
  have h23 := x.two_zpow_exponent 23
  norm_num at h24 h23
  simp only [below, if_neg hx] at hlow
  have hm : (x.significand : ℚ) ≤ 16777215 := by exact_mod_cast Nat.le_of_lt_succ x.significand_lt
  have hlt : (n : ℚ) / d < 2 ^ (x.exponent + 24) := by
    rw [h24]
    calc (n : ℚ) / d ≤ (4 * x.significand + 2) * x.quarter := hhigh
      _ < 67108864 * x.quarter := by
        apply mul_lt_mul_of_pos_right _ hquarter
        linarith
  by_cases hfield : x.exponentField ≤ 1
  · have hlog := log2Ratio_lt hn hd hlt
    have he : x.exponent = -149 := by
      simp only [exponent]
      split <;> omega
    omega
  · have hsig : (8388609 : ℚ) ≤ x.significand := by
      have : 8388609 ≤ x.significand := by
        simp only [significand, Nat.pow_eq]
        split <;> omega
      exact_mod_cast this
    have he : -149 ≤ x.exponent := by
      simp only [exponent]
      split <;> omega
    have hlog : log2Ratio n d = x.exponent + 23 := by
      apply log2Ratio_eq hn hd
      · rw [h23]
        refine le_trans ?_ hlow
        apply mul_le_mul_of_nonneg_right _ hquarter.le
        push_cast
        linarith
      · rw [add_assoc]
        exact hlt
    omega

theorem magnitudeOfRatio_of_wide (hx : ¬ (x.fractionField = 0 ∧ 1 < x.exponentField))
    (hx0 : x.significand ≠ 0) (hd : 0 < d) (h : x.interval.Contains (n / d)) :
    magnitudeOfRatio n d = x.magnitude := by
  have hn := pos_of_contains hx0 h
  obtain ⟨hlow, hhigh, htie⟩ := bounds_of_contains hx0 h
  have h0 := x.two_zpow_exponent 0
  norm_num at h0
  simp only [below, if_neg hx] at hlow htie
  rw [magnitudeOfRatio_of_near hn hd (exponent_of_wide hx hx0 hd h), magnitude_eq]
  · rw [h0]
    push_cast at hlow
    linarith
  · rw [h0]
    linarith
  · intro ht
    apply htie
    rw [h0] at ht
    push_cast
    rcases ht with ht | ht
    · left
      linarith
    · right
      linarith

theorem magnitudeOfRatio_of_contains (hx : x.significand ≠ 0) (hd : 0 < d)
    (h : x.interval.Contains (n / d)) : magnitudeOfRatio n d = x.magnitude := by
  by_cases hnarrow : x.fractionField = 0 ∧ 1 < x.exponentField
  · exact magnitudeOfRatio_of_narrow hnarrow hd h
  · exact magnitudeOfRatio_of_wide hnarrow hx hd h

/-- Every ratio in the rounding interval of a finite number is rounded to the number. -/
theorem ofRatio?_of_contains (hf : x.exponentField ≠ 255) (hx : x.significand ≠ 0) (hd : 0 < d)
    (h : x.interval.Contains (n / d)) : ofRatio? x.negative n d = some x := by
  have hfrac := x.fractionField_lt
  have hfield := x.exponentField_lt
  have hlt : x.magnitude < infinity := by
    simp only [magnitude, infinity, Nat.pow_eq]
    omega
  simp only [ofRatio?, magnitudeOfRatio_of_contains hx hd h, if_pos hlt, ofMagnitude_magnitude]

end Contains

end Single

end Reckon
