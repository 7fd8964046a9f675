import Mathlib
import Reckon.Instr
import Reckon.Proofs.NearestSingle
import Reckon.Proofs.NumeralSyntax
import Reckon.Proofs.NumeralText

namespace Reckon

open Numeral (digit oneOf)

namespace Assembly

def someDigits : RegularExpression Char := digit * digit.star

def exponentPattern : RegularExpression Char :=
  1 + .char 'e' * (oneOf ['+', '-'] * (digit * someDigits))

def unsignedPattern : RegularExpression Char :=
  someDigits * (.char '.' * (someDigits * exponentPattern))

def floatPattern : RegularExpression Char := (1 + .char '-') * unsignedPattern

/-- The number that such a text writes, without any rounding. -/
def writtenValue (cs : List Char) : ℚ :=
  let (negative, body) := splitSign cs
  let mantissa := body.takeWhile (· != 'e')
  let whole := mantissa.takeWhile (· != '.')
  let fraction := (mantissa.dropWhile (· != '.')).drop 1
  let (below, exponent) := splitSign ((body.dropWhile (· != 'e')).drop 1)
  (if negative then -1 else 1) * (ofDigits whole + ofDigits fraction / 10 ^ fraction.length) *
    10 ^ (if below then -(ofDigits exponent : ℤ) else ofDigits exponent)

theorem mem_star_digit {ds : List Char} (h : AllDigits ds) : ds ∈ digit.star.matches' := by
  refine Language.mem_kstar.2 ⟨ds.map ([·]), ?_, ?_⟩
  · induction ds with
    | nil => rfl
    | cons d ds ih =>
      rw [List.map_cons, List.flatten_cons, ← ih (List.forall_mem_cons.1 h).2,
        List.singleton_append]
  · intro w hw
    obtain ⟨d, hd, rfl⟩ := List.mem_map.1 hw
    exact Numeral.mem_digit.2 ⟨d, h d hd, rfl⟩

theorem mem_someDigits {ds : List Char} (hne : ds ≠ []) (h : AllDigits ds) :
    ds ∈ someDigits.matches' := by
  obtain ⟨d, ds, rfl⟩ := List.exists_cons_of_ne_nil hne
  obtain ⟨hd, hds⟩ := List.forall_mem_cons.1 h
  exact Numeral.mem_digit_mul.2 ⟨hd, mem_star_digit hds⟩

theorem exponentPart_mem (exponent : Option ℤ) :
    exponentPart exponent ∈ exponentPattern.matches' := by
  cases exponent with
  | none => exact .inl rfl
  | some e =>
    obtain ⟨ds, -, hds, -, htext⟩ := exponentText_eq e
    have hlen : 2 ≤ ds.length := by
      have := congrArg List.length htext
      simp only [Single.exponentText, List.length_append, List.length_cons,
        List.length_replicate] at this
      omega
    obtain ⟨d, ds, rfl⟩ := List.exists_cons_of_length_pos (by omega : 0 < ds.length)
    obtain ⟨hd, hds⟩ := List.forall_mem_cons.1 hds
    have hne : ds ≠ [] := by
      rintro rfl
      simp at hlen
    rw [exponentPart, htext]
    refine .inr (Numeral.mem_char_mul.2 ⟨rfl, ?_⟩)
    refine Language.append_mem_mul (a := [if e < 0 then '-' else '+']) (Numeral.mem_oneOf.2 ?_)
      (Numeral.mem_digit_mul.2 ⟨hd, mem_someDigits hne hds⟩)
    refine ⟨_, ?_, rfl⟩
    split <;> simp

theorem ofDigits_eq_ofDigitChars (ds : List Char) : ofDigits ds = Nat.ofDigitChars 10 ds 0 := rfl

theorem splitSign_exponentPart (exponent : Option ℤ) :
    ∃ below ds, splitSign ((exponentPart exponent).drop 1) = (below, ds) ∧
      (if below then -(ofDigits ds : ℤ) else ofDigits ds) = exponent.getD 0 := by
  cases exponent with
  | none => exact ⟨false, [], rfl, rfl⟩
  | some e =>
    obtain ⟨ds, -, -, hvalue, htext⟩ := exponentText_eq e
    refine ⟨decide (e < 0), ds, ?_, ?_⟩
    · rw [exponentPart, List.drop_one, List.tail_cons, htext]
      by_cases he : e < 0 <;> simp [he, splitSign]
    · rw [ofDigits_eq_ofDigitChars, hvalue, Option.getD_some]
      by_cases he : e < 0
      · simp only [he, decide_true, if_true]
        omega
      · simp only [he, decide_false, Bool.false_eq_true, if_false]
        omega

theorem bne_of_allDigits {ds : List Char} (h : AllDigits ds) {a : Char} (ha : ¬ a.isDigit) :
    ∀ c ∈ ds, (c != a) = true := by
  intro c hc
  simpa using isDigit_ne (h c hc) ha

section Pointed

variable {cs front back : List Char} {exponent : Option ℤ} {q : ℚ}

/-- A text with a point writes the number that its digits and its exponent give. -/
theorem writtenValue_unsigned (h : Pointed cs front back exponent q) {negative : Bool}
    {text : List Char} (hsplit : splitSign text = (negative, cs)) :
    writtenValue text = if negative then -q else q := by
  obtain ⟨below, ds, hexponent, hvalue⟩ := splitSign_exponentPart exponent
  have hmantissa : ∀ c ∈ front ++ '.' :: back, (c != 'e') = true := by
    rw [List.forall_mem_append, List.forall_mem_cons]
    exact ⟨bne_of_allDigits h.front_digits (by decide), by decide,
      bne_of_allDigits h.back_digits (by decide)⟩
  have htake : (exponentPart exponent).takeWhile (· != 'e') = [] := by cases exponent <;> rfl
  have hdrop : (exponentPart exponent).dropWhile (· != 'e') = exponentPart exponent := by
    cases exponent <;> rfl
  have hchars : cs = (front ++ '.' :: back) ++ exponentPart exponent := by
    rw [h.chars_eq, List.append_assoc, List.cons_append]
  have hfront : ∀ c ∈ front, (c != '.') = true := bne_of_allDigits h.front_digits (by decide)
  unfold writtenValue
  simp only [hsplit]
  rw [hchars, List.takeWhile_append_of_pos hmantissa, List.dropWhile_append_of_pos hmantissa, htake,
    hdrop, List.append_nil, List.takeWhile_append_of_pos hfront,
    List.dropWhile_append_of_pos hfront, hexponent]
  have hten : (10 : ℚ) ≠ 0 := by norm_num
  have hq : (ofDigits front + ofDigits back / 10 ^ back.length : ℚ) * 10 ^ exponent.getD 0 = q := by
    rw [h.value_eq, Nat.ofDigitChars_append, Nat.ofDigitChars_eq_ofDigitChars_zero, zpow_sub₀ hten,
      zpow_natCast, ofDigits_eq_ofDigitChars, ofDigits_eq_ofDigitChars]
    push_cast
    field_simp
  simp only [hvalue]
  rw [List.takeWhile_cons_of_neg (by decide), List.append_nil,
    List.dropWhile_cons_of_neg (by decide), List.drop_one, List.tail_cons, mul_assoc, hq]
  split <;> ring

theorem mem_unsignedPattern (h : Pointed cs front back exponent q) :
    cs ∈ unsignedPattern.matches' := by
  rw [h.chars_eq]
  refine Language.append_mem_mul (mem_someDigits h.front_ne h.front_digits)
    (Numeral.mem_char_mul.2 ⟨rfl, ?_⟩)
  exact Language.append_mem_mul (mem_someDigits h.back_ne h.back_digits) (exponentPart_mem exponent)

end Pointed

theorem word_float (x : Single) :
    (Immediate.float x).word.toBitVec = x.bits.toBitVec.signExtend 64 := rfl

theorem signExtend_injective {a b : BitVec 32} (h : a.signExtend 64 = b.signExtend 64) : a = b := by
  apply BitVec.eq_of_toInt_eq
  rw [← BitVec.toInt_signExtend_of_le (v := 64) (by decide), h,
    BitVec.toInt_signExtend_of_le (by decide)]

theorem rounds_shortest {x : Single} (hx : x.isFinite) :
    Single.Rounds x.negative (if x.negative then -x.shortest.value else x.shortest.value) x := by
  by_cases hzero : x.significand = 0
  · have hvalue : x.shortest.value = 0 := by
      rw [Single.shortest_of_zero hzero, Decimal.value, Nat.cast_zero, zero_mul]
    rw [hvalue]
    exact Single.rounds_zero hx hzero
  · exact Single.rounds_of_contains hx hzero (Single.shortest_contains hzero)

theorem withPoint_text {x : Single} (hx : x.isFinite) :
    withPoint x.text.toList ∈ floatPattern.matches' ∧
      writtenValue (withPoint x.text.toList) =
        (if x.negative then -x.shortest.value else x.shortest.value) ∧
      ((withPoint x.text.toList).head? = some '-' ↔ x.negative) := by
  have hfinite : x.exponentField ≠ 255 := by simpa [Single.isFinite] using hx
  obtain ⟨front, back, exponent, h, -⟩ := Single.pointed_shortest hfinite
  obtain ⟨d, ds, hfront⟩ := List.exists_cons_of_ne_nil h.front_ne
  have hd : d.isDigit := h.front_digits d (hfront ▸ List.mem_cons_self)
  have hhead : withPoint (Single.decimalText x.shortest) =
      d :: (ds ++ '.' :: (back ++ exponentPart exponent)) := by
    rw [h.chars_eq, hfront, List.cons_append]
  have hbody := mem_unsignedPattern h
  rw [Single.toList_text hfinite]
  cases hsign : x.negative with
  | true =>
    rw [if_pos rfl, Single.withPoint_minus]
    refine ⟨Language.append_mem_mul (a := ['-']) (.inr rfl) hbody, ?_, by simp⟩
    exact writtenValue_unsigned h rfl
  | false =>
    rw [if_neg Bool.false_ne_true]
    refine ⟨Language.append_mem_mul (a := []) (.inl rfl) hbody, ?_, ?_⟩
    · apply writtenValue_unsigned h
      rw [hhead, splitSign_eq (.inl hd)]
    · rw [hhead]
      simp [isDigit_ne hd (by decide : ¬ '-'.isDigit)]

/-- A finite operand is written as a decimal of the form that is read back, and what this decimal is
rounded to, with its sign, is the one number whose bits the machine extends to a word. -/
theorem immediateText_rounds_to_word (x : Single) (hx : x.isFinite) :
    ∃ cs, immediateText (.float x) = "__float32__(" ++ String.ofList cs ++ ")" ∧
      cs ∈ floatPattern.matches' ∧
      ∀ y : Single, Single.Rounds (cs.head? = some '-') (writtenValue cs) y ↔
        (Immediate.float x).word.toBitVec = y.bits.toBitVec.signExtend 64 := by
  obtain ⟨hmem, hvalue, hsign⟩ := withPoint_text hx
  refine ⟨withPoint x.text.toList, rfl, hmem, fun y => ?_⟩
  have hround := rounds_shortest hx
  have hneg : decide ((withPoint x.text.toList).head? = some '-') = x.negative := by
    rw [Bool.eq_iff_iff, decide_eq_true_iff, hsign]
  rw [hneg, hvalue, word_float]
  constructor
  · intro hy
    rw [hround.unique hy]
  · intro hbits
    have hxy : x = y := by
      cases x
      cases y
      exact congrArg Single.mk (UInt32.toBitVec_inj.1 (signExtend_injective hbits))
    exact hxy ▸ hround

/-- The negative number nearest to zero. -/
theorem immediateText_rounds_to_word_least :
    (⟨0x80000001⟩ : Single).isFinite ∧
      immediateText (.float ⟨0x80000001⟩) = "__float32__(-1.0e-45)" ∧
      ∀ y : Single, Single.Rounds true (-10 ^ (-45 : ℤ)) y ↔
        0xFFFFFFFF80000001#64 = y.bits.toBitVec.signExtend 64 := by
  have hfinite : (⟨0x80000001⟩ : Single).isFinite := by decide
  have htext : immediateText (.float ⟨0x80000001⟩) = "__float32__(-1.0e-45)" := by decide +kernel
  obtain ⟨cs, hcs, -, hround⟩ := immediateText_rounds_to_word ⟨0x80000001⟩ hfinite
  have hchars : cs = "-1.0e-45".toList := by
    have h := congrArg String.toList (hcs.symm.trans htext)
    have hend : cs ++ [')'] = "-1.0e-45".toList ++ [')'] := by simpa using h
    exact List.append_cancel_right hend
  have hvalue : writtenValue "-1.0e-45".toList = -10 ^ (-45 : ℤ) := by
    decide +kernel
  rw [hchars, hvalue] at hround
  exact ⟨hfinite, htext, hround⟩

end Assembly

end Reckon
