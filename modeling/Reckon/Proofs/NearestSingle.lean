import Mathlib
import Reckon.Proofs.Rounding

namespace Reckon.Single

def size (x : Single) : ℚ := x.significand * 2 ^ x.exponent

def value (x : Single) : ℚ := if x.negative then -x.size else x.size

/-- From here on numbers are rounded to infinity: the middle between the greatest finite number and
the power of two above it. -/
def overflow : ℚ := 2 ^ 128 - 2 ^ 103

/-- The number `q` is rounded to `x`: to the nearest finite number, and in a tie to the one with an
even significand. The sign is given apart, for the numbers that are rounded to zero. -/
structure Rounds (negative : Bool) (q : ℚ) (x : Single) : Prop where
  isFinite : x.isFinite
  sign : x.negative = negative
  range : |q| < overflow
  nearest : ∀ y : Single, y.isFinite → |q - x.value| ≤ |q - y.value|
  even : ∀ y : Single, y.isFinite → |q - y.value| = |q - x.value| → y.value ≠ x.value →
    x.significand % 2 = 0

variable {x y : Single} {q : ℚ}

theorem size_eq (x : Single) : x.size = 4 * x.significand * x.quarter := by
  have h := x.two_zpow_exponent 0
  norm_num at h
  rw [size, h]
  ring

theorem size_nonneg (x : Single) : 0 ≤ x.size := by
  unfold size
  positivity

theorem abs_value (x : Single) : |x.value| = x.size := by
  unfold value
  split
  · rw [abs_neg, abs_of_nonneg x.size_nonneg]
  · exact abs_of_nonneg x.size_nonneg

theorem significand_ge (h : y.exponent < x.exponent) :
    8388608 ≤ x.significand ∧ 1 < x.exponentField := by
  simp only [exponent, significand, Nat.pow_eq] at h ⊢
  split at h <;> split at h <;> grind

theorem size_le_of_exponent_lt (h : y.exponent < x.exponent) :
    y.size ≤ (4 * 8388608 - 2) * x.quarter := by
  have hm : (y.significand : ℚ) ≤ 16777215 := by
    exact_mod_cast Nat.le_of_lt_succ y.significand_lt
  have hhalf := x.two_zpow_exponent (-1)
  norm_num at hhalf
  have hexp : (2 : ℚ) ^ y.exponent ≤ 2 ^ (x.exponent + -1) :=
    zpow_le_zpow_right₀ (by norm_num) (by omega)
  rw [hhalf] at hexp
  have hpos := x.quarter_pos
  calc y.size ≤ 16777215 * (2 * x.quarter) := by
        unfold size
        gcongr
    _ = (4 * 8388608 - 2) * x.quarter := by ring

theorem size_lt_of_exponent_lt (h : y.exponent < x.exponent) : y.size < x.size := by
  have hpos := x.quarter_pos
  have hbig : (8388608 : ℚ) ≤ x.significand := by exact_mod_cast (significand_ge h).1
  calc y.size ≤ (4 * 8388608 - 2) * x.quarter := size_le_of_exponent_lt h
    _ < 4 * 8388608 * x.quarter := by linarith
    _ ≤ x.size := by
      rw [size_eq]
      gcongr

theorem exists_size_eq (h : x.exponent ≤ y.exponent) :
    ∃ k : ℕ, y.size = 4 * k * x.quarter := by
  obtain ⟨n, hn⟩ := Int.eq_ofNat_of_zero_le (sub_nonneg.2 h)
  have hexp : y.exponent - 2 = (x.exponent - 2) + n := by
    have : y.exponent - x.exponent = n := hn
    omega
  refine ⟨y.significand * 2 ^ n, ?_⟩
  rw [size_eq, quarter, quarter, hexp, zpow_add₀ (by norm_num), zpow_natCast]
  push_cast
  ring

/-- There is a gap above every number. -/
theorem size_ge_of_lt (h : x.size < y.size) : (4 * x.significand + 4) * x.quarter ≤ y.size := by
  have hpos := x.quarter_pos
  rcases le_or_gt x.exponent y.exponent with hle | hlt
  · obtain ⟨k, hk⟩ := exists_size_eq hle
    rw [hk, size_eq] at h
    have hlt := lt_of_mul_lt_mul_right h hpos.le
    have hsucc : x.significand + 1 ≤ k := by
      have : (x.significand : ℚ) < k := by linarith
      exact_mod_cast this
    have hsucc' : (x.significand : ℚ) + 1 ≤ k := by exact_mod_cast hsucc
    rw [hk]
    apply mul_le_mul_of_nonneg_right _ hpos.le
    linarith
  · exact absurd h (size_lt_of_exponent_lt hlt).not_gt

/-- There is a gap below every number, half as wide if the exponent is smaller there. -/
theorem size_le_of_lt (h : y.size < x.size) :
    y.size ≤ (4 * x.significand - 2 * x.below) * x.quarter := by
  have hpos := x.quarter_pos
  rcases le_or_gt x.exponent y.exponent with hle | hlt
  · obtain ⟨k, hk⟩ := exists_size_eq hle
    rw [hk, size_eq] at h
    have hlt := lt_of_mul_lt_mul_right h hpos.le
    have hsucc : k + 1 ≤ x.significand := by
      have : (k : ℚ) < x.significand := by linarith
      exact_mod_cast this
    have hsucc' : (k : ℚ) + 1 ≤ x.significand := by exact_mod_cast hsucc
    have hbelow := x.below_le
    rw [hk]
    apply mul_le_mul_of_nonneg_right _ hpos.le
    linarith
  · refine (size_le_of_exponent_lt hlt).trans (mul_le_mul_of_nonneg_right ?_ hpos.le)
    obtain ⟨hbig, hfield⟩ := significand_ge hlt
    unfold below
    split
    · have hbig' : (8388608 : ℚ) ≤ x.significand := by exact_mod_cast hbig
      push_cast
      linarith
    case isFalse hwide =>
      have hsig : 8388609 ≤ x.significand := by
        simp only [significand, Nat.pow_eq]
        split <;> omega
      have hsig' : (8388609 : ℚ) ≤ x.significand := by exact_mod_cast hsig
      push_cast
      linarith

theorem eq_of_size_eq (hsign : x.negative = y.negative) (h : x.size = y.size) : x = y := by
  have hexponent : x.exponent = y.exponent := by
    apply le_antisymm
    · exact not_lt.1 fun hlt => (size_lt_of_exponent_lt hlt).ne' h
    · exact not_lt.1 fun hlt => (size_lt_of_exponent_lt hlt).ne h
  have hsignificand : x.significand = y.significand := by
    rw [size, size, hexponent] at h
    exact_mod_cast mul_right_cancel₀ (by positivity) h
  rw [← ofMagnitude_magnitude x, ← ofMagnitude_magnitude y, magnitude_eq, magnitude_eq, hsign,
    hexponent, hsignificand]

/-- Half a gap away a number is the nearest, and another is as near only just there. -/
theorem abs_sub_le_of_gap {r s t b : ℚ} (hb : 0 ≤ b) (ht : t ≤ s - 2 * b) (hr : s - b ≤ r) :
    |r - s| ≤ |r - t| ∧ (|r - t| = |r - s| → t ≠ s → r = s - b) := by
  have hpos : |r - t| = r - t := abs_of_nonneg (by linarith)
  rw [hpos]
  refine ⟨abs_le.2 ⟨by linarith, by linarith⟩, fun htie hne => ?_⟩
  rcases abs_cases (r - s) with ⟨habs, -⟩ | ⟨habs, -⟩
  · exact absurd (by linarith : t = s) hne
  · linarith

section Bounds

variable {r : ℚ}

theorem size_nearest (hlow : (4 * x.significand - x.below) * x.quarter ≤ r)
    (hhigh : r ≤ (4 * x.significand + 2) * x.quarter) (y : Single) :
    |r - x.size| ≤ |r - y.size| ∧ (|r - y.size| = |r - x.size| → y.size ≠ x.size →
      r = (4 * x.significand - x.below) * x.quarter ∨ r = (4 * x.significand + 2) * x.quarter) := by
  have hpos := x.quarter_pos
  have hsize := x.size_eq
  rcases lt_trichotomy y.size x.size with hlt | heq | hgt
  · have hgap := size_le_of_lt hlt
    obtain ⟨hle, htie⟩ := abs_sub_le_of_gap (r := r) (s := x.size) (b := x.below * x.quarter)
      (by positivity) (hgap.trans_eq (by rw [hsize]; ring)) (by linarith)
    refine ⟨hle, fun heq hne => .inl ?_⟩
    rw [htie heq hne, hsize]
    ring
  · exact ⟨heq ▸ le_rfl, fun _ hne => absurd heq hne⟩
  · -- The gap above is the one below of the negated numbers.
    have hgap := size_ge_of_lt hgt
    obtain ⟨hle, htie⟩ := abs_sub_le_of_gap (r := -r) (s := -x.size) (t := -y.size)
      (b := 2 * x.quarter) (by linarith) (by linarith) (by linarith)
    have hneg (t : ℚ) : |-r - -t| = |r - t| := by
      rw [← abs_neg]
      congr 1
      ring
    rw [hneg, hneg] at hle htie
    refine ⟨hle, fun heq hne => .inr ?_⟩
    have := htie heq (neg_injective.ne hne)
    linarith

theorem abs_signed (negative : Bool) (q : ℚ) : |if negative then -q else q| = |q| := by
  cases negative
  · rfl
  · exact abs_neg q

theorem abs_signed_sub_value (x : Single) (r : ℚ) :
    |(if x.negative then -r else r) - x.value| = |r - x.size| := by
  unfold value
  split
  · rw [← abs_neg]
    congr 1
    ring
  · rfl

theorem abs_size_sub_le (hr : 0 ≤ r) (negative : Bool) (y : Single) :
    |r - y.size| ≤ |(if negative then -r else r) - y.value| := by
  have h := abs_abs_sub_abs_le (if negative then -r else r) y.value
  rwa [abs_signed, abs_of_nonneg hr, abs_value] at h

theorem lt_overflow (hf : x.isFinite) (hhigh : r ≤ (4 * x.significand + 2) * x.quarter)
    (htie : r = (4 * x.significand + 2) * x.quarter → x.significand % 2 = 0) : r < overflow := by
  have hfinite : x.exponentField ≠ 255 := by simpa [isFinite] using hf
  have hfield := x.exponentField_lt
  have hexponent : x.exponent ≤ 104 := by
    simp only [exponent]
    split <;> omega
  have hlarge : x.quarter ≤ (2 : ℚ) ^ (102 : ℤ) := zpow_le_zpow_right₀ (by norm_num) (by omega)
  have hm := x.significand_lt
  have hpos := x.quarter_pos
  -- The end of the interval of the greatest number is not in it: its significand is odd.
  rcases Nat.lt_or_ge x.significand 16777215 with hlt | hge
  · have hsig : (x.significand : ℚ) ≤ 16777214 := by exact_mod_cast Nat.le_of_lt_succ hlt
    calc r ≤ (4 * x.significand + 2) * x.quarter := hhigh
      _ ≤ (4 * 16777214 + 2) * 2 ^ (102 : ℤ) := by gcongr
      _ < overflow := by
        unfold overflow
        norm_num
  · have hsig : x.significand = 16777215 := by omega
    have hne : r ≠ (4 * x.significand + 2) * x.quarter := fun heq => by
      have := htie heq
      omega
    calc r < (4 * x.significand + 2) * x.quarter := lt_of_le_of_ne hhigh hne
      _ ≤ (4 * 16777215 + 2) * 2 ^ (102 : ℤ) := by
        rw [hsig, Nat.cast_ofNat]
        exact mul_le_mul_of_nonneg_left hlarge (by norm_num)
      _ = overflow := by
        unfold overflow
        norm_num

theorem value_eq_neg (h : y.size = x.size) (hne : y.value ≠ x.value) : y.value = -x.value := by
  rw [← abs_value, ← abs_value] at h
  exact (abs_eq_abs.1 h).resolve_left hne

/-- Everything in the rounding interval of a number is rounded to it. -/
theorem rounds_of_contains (hf : x.isFinite) (hx : x.significand ≠ 0)
    (h : x.interval.Contains r) : Rounds x.negative (if x.negative then -r else r) x := by
  obtain ⟨hlow, hhigh, htie⟩ := bounds_of_contains hx h
  have hr : 0 < r := (low_pos hx).trans_le hlow
  have hm : 0 < x.significand := Nat.pos_of_ne_zero hx
  have hsize : 0 < x.size := by
    unfold size
    positivity
  refine ⟨hf, rfl, ?_, fun y _ => ?_, fun y _ heq hne => ?_⟩
  · rw [abs_signed, abs_of_pos hr]
    exact lt_overflow hf hhigh fun heq => htie (.inr heq)
  · rw [abs_signed_sub_value]
    exact (size_nearest hlow hhigh y).1.trans (abs_size_sub_le hr.le _ y)
  · have hless := abs_size_sub_le hr.le x.negative y
    obtain ⟨hle, hend⟩ := size_nearest hlow hhigh y
    rw [heq, abs_signed_sub_value] at hless
    refine htie (hend (le_antisymm hless hle) fun hsame => ?_)
    -- Only the signs could differ then, and the number of the other sign is farther away.
    have hopposite : |(if x.negative then -r else r) - y.value| = r + x.size := by
      rw [value_eq_neg hsame hne, value]
      split
      · rw [abs_of_nonpos (by linarith)]
        ring
      · rw [abs_of_nonneg (by linarith)]
        ring
    rw [hopposite, abs_signed_sub_value] at heq
    rcases abs_cases (r - x.size) with ⟨habs, -⟩ | ⟨habs, -⟩ <;> linarith

theorem rounds_zero (hf : x.isFinite) (hx : x.significand = 0) :
    Rounds x.negative (if x.negative then -0 else 0) x := by
  have hsize : x.size = 0 := by rw [size, hx, Nat.cast_zero, zero_mul]
  have hvalue : x.value = 0 := by
    rw [value, hsize]
    split <;> simp
  rw [neg_zero, ite_self]
  refine ⟨hf, rfl, ?_, fun y _ => ?_, fun y _ _ _ => ?_⟩
  · unfold overflow
    norm_num
  · rw [hvalue, sub_zero, abs_zero]
    exact abs_nonneg _
  · rw [hx]

end Bounds

theorem exists_next (hf : x.isFinite) (heven : x.significand % 2 = 0) :
    ∃ z : Single, z.isFinite ∧ z.negative = x.negative ∧ z.significand = x.significand + 1 ∧
      z.exponent = x.exponent := by
  have hbits := x.bits.toNat_lt
  have hparity : x.bits.toNat % 2 = 0 := by
    simp only [significand, fractionField, Nat.pow_eq] at heven
    split at heven <;> omega
  have hnext : (x.bits + 1).toNat = x.bits.toNat + 1 := by
    rw [UInt32.toNat_add, UInt32.toNat_one, Nat.mod_eq_of_lt]
    omega
  have hfield : exponentField ⟨x.bits + 1⟩ = x.exponentField := by
    simp only [exponentField, hnext, Nat.pow_eq]
    omega
  have hfraction : fractionField ⟨x.bits + 1⟩ = x.fractionField + 1 := by
    simp only [fractionField, hnext, Nat.pow_eq]
    omega
  refine ⟨⟨x.bits + 1⟩, ?_, ?_, ?_, ?_⟩
  · rw [isFinite, hfield]
    exact hf
  · simp only [negative, hnext, Nat.pow_eq, decide_eq_decide]
    omega
  · rw [significand, significand, hfield, hfraction]
    split <;> omega
  · rw [exponent, exponent, hfield]

theorem abs_sub_lt_of_between {a b c : ℚ} (h : |q - c| = |q - a|)
    (hb : a < b ∧ b < c ∨ c < b ∧ b < a) : |q - b| < |q - a| := by
  have hmiddle : q - c = -(q - a) := (abs_eq_abs.1 h).resolve_left fun heq => by
    have : a = c := by linarith
    rcases hb with ⟨h₁, h₂⟩ | ⟨h₁, h₂⟩ <;> linarith
  rcases hb with ⟨h₁, h₂⟩ | ⟨h₁, h₂⟩
  · rw [abs_of_nonneg (by linarith : 0 ≤ q - a)]
    exact abs_lt.2 ⟨by linarith, by linarith⟩
  · rw [abs_of_nonpos (by linarith : q - a ≤ 0)]
    exact abs_lt.2 ⟨by linarith, by linarith⟩

theorem Rounds.size_le {negative : Bool} (hx : Rounds negative q x) (hy : Rounds negative q y) :
    y.size ≤ x.size := by
  by_contra hlt
  rw [not_le] at hlt
  have hne : y.value ≠ x.value := fun heq => hlt.ne (by rw [← abs_value, ← abs_value, heq])
  have htie := le_antisymm (hy.nearest x hx.isFinite) (hx.nearest y hy.isFinite)
  obtain ⟨z, hf, hsign, hsignificand, hexponent⟩ :=
    exists_next hx.isFinite (hx.even y hy.isFinite htie hne)
  have hsize : z.size = (4 * x.significand + 4) * x.quarter := by
    rw [size_eq, quarter, quarter, hsignificand, hexponent]
    push_cast
    ring
  have hodd : z ≠ y := by
    rintro rfl
    have := hx.even z hf htie hne
    have := hy.even x hx.isFinite htie.symm hne.symm
    omega
  have hgap : z.size ≤ y.size := hsize ▸ size_ge_of_lt hlt
  have hzy : z.size < y.size := lt_of_le_of_ne hgap fun heq =>
    hodd (eq_of_size_eq (hsign.trans (hx.sign.trans hy.sign.symm)) heq)
  have hxz : x.size < z.size := by
    rw [hsize, size_eq]
    linarith [x.quarter_pos]
  refine absurd (hx.nearest z hf) (abs_sub_lt_of_between htie ?_).not_ge
  rw [value, value, value, hsign, hx.sign, hy.sign]
  cases negative with
  | false => exact .inl ⟨hxz, hzy⟩
  | true => exact .inr ⟨neg_lt_neg hzy, neg_lt_neg hxz⟩

/-- A number is rounded to one number only. -/
theorem Rounds.unique {negative : Bool} (hx : Rounds negative q x) (hy : Rounds negative q y) :
    x = y :=
  eq_of_size_eq (hx.sign.trans hy.sign.symm) (le_antisymm (hy.size_le hx) (hx.size_le hy))

end Reckon.Single
