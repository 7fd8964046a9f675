import Mathlib.Computability.RegularExpressions
import Mathlib.Tactic.IntervalCases
import Reckon.Proofs.Relexing

namespace Reckon

namespace Numeral

def oneOf (cs : List Char) : RegularExpression Char := cs.foldr (fun c r => .char c + r) 0

def digit : RegularExpression Char := oneOf ['0', '1', '2', '3', '4', '5', '6', '7', '8', '9']

def groups : RegularExpression Char := ((1 + .char '_') * digit).star

def digits : RegularExpression Char := digit * groups

/-- Digits with at most one point, which may stand before, between or behind them, or alone. -/
def pattern : RegularExpression Char :=
  digits + digits * .char '.' + digits * .char '.' * digits + .char '.' + .char '.' * digits

/-- What a reader of numerals has seen: digits only, a point last, or digits behind a point. -/
inductive Stage where
  | whole
  | point
  | fraction
  deriving DecidableEq

namespace Stage

def hasPoint : Stage → Bool
  | .whole => false
  | .point | .fraction => true

def isDigit : Stage → Bool
  | .whole | .fraction => true
  | .point => false

def next : Stage → Stage
  | .whole => .whole
  | .point | .fraction => .fraction

def rest : Stage → RegularExpression Char
  | .whole => groups + groups * (.char '.' * (1 + digits))
  | .point => 1 + digits
  | .fraction => groups

theorem next_eq_self (s : Stage) (h : s.isDigit) : s.next = s := by
  cases s with
  | whole => rfl
  | point => cases h
  | fraction => rfl

theorem isDigit_next (s : Stage) : s.next.isDigit = true := by cases s <;> rfl

theorem hasPoint_next (s : Stage) : s.next.hasPoint = s.hasPoint := by cases s <;> rfl

end Stage

/-- The characters `w` complete a numeral at a stage. -/
inductive Continues : Stage → List Char → Prop where
  | done (s : Stage) : Continues s []
  | digit {s : Stage} {c : Char} {w : List Char} :
    c.isDigit → Continues s.next w → Continues s (c :: w)
  | grouped {s : Stage} {c : Char} {w : List Char} :
    s.isDigit → c.isDigit → Continues s w → Continues s ('_' :: c :: w)
  | point {w : List Char} : Continues .point w → Continues .whole ('.' :: w)

section Languages

variable {c : Char} {w u v : List Char} {s : Stage}

theorem mem_char : w ∈ (RegularExpression.char c).matches' ↔ w = [c] := Iff.rfl

theorem mem_oneOf {cs : List Char} : w ∈ (oneOf cs).matches' ↔ ∃ c ∈ cs, w = [c] := by
  induction cs with
  | nil =>
    rw [oneOf, List.foldr_nil, RegularExpression.matches'_zero]
    simp
  | cons c cs ih =>
    rw [oneOf, List.foldr_cons, RegularExpression.matches'_add, Language.mem_add, mem_char, ← oneOf,
      ih]
    simp

theorem mem_digit : w ∈ digit.matches' ↔ ∃ c, c.isDigit ∧ w = [c] := by
  rw [digit, mem_oneOf]
  constructor
  · rintro ⟨c, hc, rfl⟩
    simp only [List.mem_cons, List.not_mem_nil, or_false] at hc
    refine ⟨c, ?_, rfl⟩
    rcases hc with rfl | rfl | rfl | rfl | rfl | rfl | rfl | rfl | rfl | rfl <;> rfl
  · rintro ⟨c, hc, rfl⟩
    refine ⟨c, ?_, rfl⟩
    simp only [Char.isDigit, Bool.and_eq_true, decide_eq_true_eq, UInt32.le_iff_toNat_le,
      ge_iff_le, Char.toNat_val, Char.reduceToNat] at hc
    obtain ⟨hlow, hhigh⟩ := hc
    rw [← Char.ofNat_toNat c]
    interval_cases c.toNat <;> decide

theorem mem_digit_mul {L : Language Char} :
    c :: w ∈ digit.matches' * L ↔ c.isDigit ∧ w ∈ L := by
  rw [Language.mem_mul]
  constructor
  · rintro ⟨a, ha, b, hb, hab⟩
    obtain ⟨d, hd, rfl⟩ := mem_digit.1 ha
    cases hab
    exact ⟨hd, hb⟩
  · rintro ⟨hc, hw⟩
    exact ⟨[c], mem_digit.2 ⟨c, hc, rfl⟩, w, hw, rfl⟩

theorem mem_char_mul {d : Char} {L : Language Char} :
    c :: w ∈ (RegularExpression.char d).matches' * L ↔ c = d ∧ w ∈ L := by
  rw [Language.mem_mul]
  constructor
  · rintro ⟨a, ha, b, hb, hab⟩
    cases mem_char.1 ha
    cases hab
    exact ⟨rfl, hb⟩
  · rintro ⟨rfl, hw⟩
    exact ⟨[c], rfl, w, hw, rfl⟩

theorem mem_group :
    w ∈ ((1 + .char '_') * digit).matches' ↔ ∃ c, c.isDigit ∧ (w = [c] ∨ w = ['_', c]) := by
  rw [RegularExpression.matches'_mul, Language.mem_mul]
  constructor
  · rintro ⟨a, ha, b, hb, rfl⟩
    obtain ⟨c, hc, rfl⟩ := mem_digit.1 hb
    refine ⟨c, hc, ?_⟩
    rcases ha with ha | ha
    · cases (Language.mem_one a).1 ha
      exact .inl rfl
    · cases mem_char.1 ha
      exact .inr rfl
  · rintro ⟨c, hc, rfl | rfl⟩
    · exact ⟨[], .inl rfl, [c], mem_digit.2 ⟨c, hc, rfl⟩, rfl⟩
    · exact ⟨['_'], .inr rfl, [c], mem_digit.2 ⟨c, hc, rfl⟩, rfl⟩

theorem nil_mem_groups : [] ∈ groups.matches' := Language.nil_mem_kstar _

theorem append_mem_groups (hu : u ∈ ((1 + .char '_') * digit).matches')
    (hw : w ∈ groups.matches') : u ++ w ∈ groups.matches' := by
  obtain ⟨parts, rfl, hparts⟩ := Language.mem_kstar.1 hw
  exact Language.mem_kstar.2 ⟨u :: parts, rfl, List.forall_mem_cons.2 ⟨hu, hparts⟩⟩

theorem append_mem_rest (hs : s.isDigit) (hu : u ∈ ((1 + .char '_') * digit).matches')
    (hw : w ∈ s.rest.matches') : u ++ w ∈ s.rest.matches' := by
  cases s with
  | whole =>
    rcases hw with hw | ⟨a, ha, b, hb, rfl⟩
    · exact .inl (append_mem_groups hu hw)
    · exact .inr ⟨u ++ a, append_mem_groups hu ha, b, hb, List.append_assoc u a b⟩
  | point => cases hs
  | fraction => exact append_mem_groups hu hw

theorem Continues.mem_rest (h : Continues s w) : w ∈ s.rest.matches' := by
  induction h with
  | done s =>
    cases s with
    | whole => exact .inl nil_mem_groups
    | point => exact .inl rfl
    | fraction => exact nil_mem_groups
  | @digit s c w hc _ ih =>
    have hgroup : [c] ∈ ((1 + .char '_') * Numeral.digit).matches' :=
      mem_group.2 ⟨c, hc, .inl rfl⟩
    cases s with
    | whole => exact append_mem_rest rfl hgroup ih
    | point => exact .inr (mem_digit_mul.2 ⟨hc, ih⟩)
    | fraction => exact append_mem_rest rfl hgroup ih
  | @grouped s c w hs hc _ ih => exact append_mem_rest hs (mem_group.2 ⟨c, hc, .inr rfl⟩) ih
  | @point w _ ih => exact .inr ⟨[], nil_mem_groups, '.' :: w, mem_char_mul.2 ⟨rfl, ih⟩, rfl⟩

theorem Continues.groups_append (hs : s.isDigit) (hu : u ∈ groups.matches')
    (hw : Continues s w) : Continues s (u ++ w) := by
  have hnext := s.next_eq_self hs
  obtain ⟨parts, rfl, hparts⟩ := Language.mem_kstar.1 hu
  clear hu
  induction parts with
  | nil => exact hw
  | cons part parts ih =>
    obtain ⟨hpart, hrest⟩ := List.forall_mem_cons.1 hparts
    rw [List.flatten_cons, List.append_assoc]
    obtain ⟨c, hc, rfl | rfl⟩ := mem_group.1 hpart
    · apply Continues.digit hc
      rw [hnext]
      exact ih hrest
    · exact .grouped hs hc (ih hrest)

theorem Continues.of_mem_rest (h : w ∈ s.rest.matches') : Continues s w := by
  have hgroups {s : Stage} {w : List Char} (hs : s.isDigit) (hw : w ∈ groups.matches') :
      Continues s w := by
    have h := groups_append hs hw (.done s)
    rwa [List.append_nil] at h
  have hpoint {w : List Char} (hw : w ∈ (1 + digits).matches') : Continues .point w := by
    cases w with
    | nil => exact .done _
    | cons c w =>
      rcases hw with hw | hw
      · cases (Language.mem_one _).1 hw
      · obtain ⟨hc, hw⟩ := mem_digit_mul.1 hw
        exact .digit hc (hgroups rfl hw)
  cases s with
  | whole =>
    rcases h with h | ⟨a, ha, b, ⟨d, hd, v, hv, rfl⟩, rfl⟩
    · exact hgroups rfl h
    · cases mem_char.1 hd
      exact groups_append rfl ha (.point (hpoint hv))
  | point => exact hpoint h
  | fraction => exact hgroups rfl h

theorem mem_pattern : c :: w ∈ pattern.matches' ↔
    c.isDigit ∧ Continues .whole w ∨ c = '.' ∧ Continues .point w := by
  have hsplit : pattern.matches' = digit.matches' * Stage.whole.rest.matches' +
      (RegularExpression.char '.').matches' * Stage.point.rest.matches' := by
    simp only [pattern, digits, Stage.rest, RegularExpression.matches'_add,
      RegularExpression.matches'_mul, RegularExpression.matches'_epsilon, mul_add, mul_one,
      mul_assoc, add_assoc]
  have hrest {s : Stage} : w ∈ s.rest.matches' ↔ Continues s w :=
    ⟨.of_mem_rest, fun h => h.mem_rest⟩
  rw [hsplit, Language.mem_add, mem_digit_mul, mem_char_mul, hrest, hrest]

end Languages

section Inversion

variable {c : Char} {w : List Char} {s : Stage}

theorem continues_digit (hc : c.isDigit) : Continues s (c :: w) ↔ Continues s.next w := by
  constructor
  · intro h
    cases h with
    | digit _ h => exact h
    | grouped => cases hc
    | point => cases hc
  · intro h
    exact .digit hc h

theorem continues_underscore :
    Continues s ('_' :: w) ↔ s.isDigit ∧ startsWithDigit w ∧ Continues s w := by
  constructor
  · intro h
    cases h with
    | digit hc _ => cases hc
    | grouped hs hc h =>
      rw [continues_digit hc, s.next_eq_self hs]
      exact ⟨hs, hc, h⟩
  · rintro ⟨hs, hd, h⟩
    cases w with
    | nil => cases hd
    | cons c w =>
      rw [continues_digit hd, s.next_eq_self hs] at h
      exact .grouped hs hd h

theorem continues_point : Continues s ('.' :: w) ↔ s = .whole ∧ Continues .point w := by
  constructor
  · intro h
    cases h with
    | digit hc _ => cases hc
    | point h => exact ⟨rfl, h⟩
  · rintro ⟨rfl, h⟩
    exact .point h

theorem not_continues (hd : ¬ c.isDigit) (hu : c ≠ '_') (hp : c ≠ '.') :
    ¬ Continues s (c :: w) := by
  intro h
  cases h with
  | digit hc _ => exact hd hc
  | grouped => exact hu rfl
  | point => exact hp rfl

end Inversion

def isNumeralChar (c : Char) : Bool := c.isAlphanum || c = '_' || c = '.'

def run (cs : List Char) : List Char := cs.takeWhile isNumeralChar

/-- What is read of a numeral at a stage: all of the run, when it completes the numeral, and
otherwise a part of it. -/
inductive Recognised (s : Stage) (cs : List Char) : Tail → Prop where
  | valid : Continues s (run cs) → Recognised s cs
      { raw := (run cs).filter (· ≠ '_'), valid := true,
        point := s.hasPoint || (run cs).contains '.', taken := run cs,
        rest := cs.dropWhile isNumeralChar }
  | invalid {t : Tail} : ¬ Continues s (run cs) → t.valid = false → t.taken <+: run cs →
    Recognised s cs t

namespace Recognised

variable {c : Char} {cs : List Char} {s s' : Stage} {t : Tail}

theorem contains_point (c : Char) (w : List Char) :
    (c :: w).contains '.' = (decide (c = '.') || w.contains '.') := by
  simp [eq_comm]

theorem run_cons (hc : isNumeralChar c) (cs : List Char) : run (c :: cs) = c :: run cs :=
  List.takeWhile_cons_of_pos hc

theorem ended (h : run cs = []) :
    Recognised s cs { raw := [], valid := true, point := s.hasPoint, taken := [], rest := cs } := by
  have hrest : cs.dropWhile isNumeralChar = cs := by
    have hsplit : run cs ++ cs.dropWhile isNumeralChar = cs := List.takeWhile_append_dropWhile
    rwa [h] at hsplit
  have hall : Recognised s cs _ := .valid (by rw [h]; exact .done s)
  rw [h, hrest] at hall
  simpa using hall

theorem cons (hc : isNumeralChar c) (hstep : Continues s (c :: run cs) ↔ Continues s' (run cs))
    (hpoint : s'.hasPoint = (s.hasPoint || c = '.')) (h : Recognised s' cs t) :
    Recognised s (c :: cs) (if c = '_' then t.drop c else t.keep c) := by
  cases h with
  | valid h =>
    have hall : Recognised s (c :: cs) _ := .valid (by rw [run_cons hc, hstep]; exact h)
    have hrest : (c :: cs).dropWhile isNumeralChar = cs.dropWhile isNumeralChar :=
      List.dropWhile_cons_of_pos hc
    have hseen : (s.hasPoint || (c :: run cs).contains '.') =
        (s'.hasPoint || (run cs).contains '.') := by
      rw [hpoint, contains_point, Bool.or_assoc]
    rw [run_cons hc, hrest, hseen] at hall
    by_cases hu : c = '_'
    · rw [List.filter_cons_of_neg (by simp [hu])] at hall
      rw [if_pos hu]
      exact hall
    · rw [List.filter_cons_of_pos (by simp [hu])] at hall
      rw [if_neg hu]
      exact hall
  | invalid h hvalid htaken =>
    apply invalid
    · rw [run_cons hc, hstep]
      exact h
    · split <;> exact hvalid
    · rw [run_cons hc]
      split <;> exact List.cons_prefix_cons.2 ⟨rfl, htaken⟩

theorem spoilt (hc : isNumeralChar c) (h : ¬ Continues s (c :: run cs)) (hvalid : t.valid = false)
    (htaken : t.taken = [c]) : Recognised s (c :: cs) t := by
  apply invalid
  · rw [run_cons hc]
    exact h
  · exact hvalid
  · rw [run_cons hc, htaken]
    exact List.cons_prefix_cons.2 ⟨rfl, List.nil_prefix⟩

end Recognised

theorem startsWithDigit_run (cs : List Char) : startsWithDigit (run cs) = startsWithDigit cs := by
  cases cs with
  | nil => rfl
  | cons c cs =>
    by_cases hc : isNumeralChar c
    · rw [Recognised.run_cons hc]
      rfl
    · rw [run, List.takeWhile_cons_of_neg hc]
      have hd : c.isDigit = false := by
        simp only [isNumeralChar, Char.isAlphanum, Bool.or_eq_true, not_or] at hc
        simpa using hc.1.1.2
      exact hd.symm

section Step

variable {s : Stage} {c : Char} {cs : List Char}

theorem Recognised.digit (hd : c.isDigit)
    (h : Recognised s.next cs (numeralTail s.next.hasPoint s.next.isDigit cs)) :
    Recognised s (c :: cs) ((numeralTail s.hasPoint true cs).keep c) := by
  have hc : isNumeralChar c := by simp [isNumeralChar, Char.isAlphanum, hd]
  have hu : c ≠ '_' := isDigit_ne hd (by decide)
  have hp : c ≠ '.' := isDigit_ne hd (by decide)
  have hcons := h.cons hc (continues_digit hd) (by simp [s.hasPoint_next, hp])
  rwa [if_neg hu, s.isDigit_next, s.hasPoint_next] at hcons

theorem Recognised.underscore (h : Recognised s cs (numeralTail s.hasPoint s.isDigit cs)) :
    Recognised s ('_' :: cs) (if s.isDigit && startsWithDigit cs then
        (numeralTail s.hasPoint true cs).drop '_'
      else { raw := ['_'], valid := false, point := s.hasPoint, taken := ['_'], rest := cs }) := by
  have hiff := continues_underscore (s := s) (w := run cs)
  rw [startsWithDigit_run] at hiff
  cases hs : s.isDigit && startsWithDigit cs with
  | true =>
    rw [Bool.and_eq_true] at hs
    have hcons := h.cons (c := '_') (s := s) rfl (by simp [hiff, hs]) (by simp)
    rw [hs.1] at hcons
    exact hcons
  | false =>
    apply Recognised.spoilt rfl _ rfl rfl
    intro hcontinues
    obtain ⟨hdigit, hstart, -⟩ := hiff.1 hcontinues
    rw [hdigit, hstart] at hs
    cases hs

theorem Recognised.point (hs : s.hasPoint = false)
    (h : Recognised .point cs (numeralTail true false cs)) :
    Recognised s ('.' :: cs) ((numeralTail true false cs).keep '.') := by
  cases s with
  | whole => exact h.cons (c := '.') (s := .whole) rfl (by simp [continues_point]) rfl
  | point => cases hs
  | fraction => cases hs

theorem Recognised.refused (hd : ¬ c.isDigit) (hu : c ≠ '_') (hp : ¬ (c = '.' ∧ !s.hasPoint))
    (ha : c = '.' ∨ c.isAlpha) :
    Recognised s (c :: cs)
      { raw := [c], valid := false, point := s.hasPoint, taken := [c], rest := cs } := by
  rcases ha with rfl | ha
  · apply Recognised.spoilt rfl _ rfl rfl
    rw [continues_point]
    rintro ⟨rfl, -⟩
    exact hp ⟨rfl, rfl⟩
  · have hc : isNumeralChar c := by simp [isNumeralChar, Char.isAlphanum, ha]
    apply Recognised.spoilt hc _ rfl rfl
    apply not_continues hd hu
    rintro rfl
    cases ha

theorem Recognised.stopped (hd : ¬ c.isDigit) (hu : c ≠ '_') (ha : ¬ (c = '.' ∨ c.isAlpha)) :
    Recognised s (c :: cs)
      { raw := [], valid := true, point := s.hasPoint, taken := [], rest := c :: cs } := by
  apply Recognised.ended
  apply List.takeWhile_cons_of_neg
  rw [not_or] at ha
  simp [isNumeralChar, Char.isAlphanum, hd, hu, ha]

end Step

/-- The reader of numerals recognises what the stages say, character by character. -/
theorem recognised_numeralTail (s : Stage) (cs : List Char) :
    Recognised s cs (numeralTail s.hasPoint s.isDigit cs) := by
  induction cs generalizing s with
  | nil => exact .ended rfl
  | cons c cs ih =>
    rw [numeralTail]
    by_cases hd : c.isDigit
    · rw [if_pos hd]
      exact .digit hd (ih s.next)
    rw [if_neg hd]
    by_cases hu : c = '_'
    · subst hu
      rw [if_pos rfl]
      exact .underscore (ih s)
    rw [if_neg hu]
    by_cases hp : c = '.' ∧ !s.hasPoint
    · rw [if_pos hp]
      obtain ⟨rfl, hs⟩ := hp
      exact .point (by simpa using hs) (ih .point)
    rw [if_neg hp]
    by_cases ha : c = '.' ∨ c.isAlpha
    · rw [if_pos ha]
      exact .refused hd hu hp ha
    · rw [if_neg ha]
      exact .stopped hd hu ha

def Stage.start (c : Char) : Stage := if c = '.' then .point else .whole

section Reading

variable {c : Char} {cs : List Char}

theorem Stage.hasPoint_start (c : Char) : (start c).hasPoint = decide (c = '.') := by
  by_cases hp : c = '.' <;> simp [start, hp, hasPoint]

theorem Stage.isDigit_start (hc : c.isDigit ∨ c = '.') : (start c).isDigit = c.isDigit := by
  rcases hc with hd | rfl
  · rw [start, if_neg (isDigit_ne hd (by decide)), hd]
    rfl
  · rfl

theorem recognised_start (hc : c.isDigit ∨ c = '.') (cs : List Char) :
    Recognised (.start c) cs (numeralTail (c = '.') c.isDigit cs) := by
  have h := recognised_numeralTail (.start c) cs
  rwa [Stage.hasPoint_start, Stage.isDigit_start hc] at h

theorem mem_pattern_start (hc : c.isDigit ∨ c = '.') {w : List Char} :
    c :: w ∈ pattern.matches' ↔ Continues (.start c) w := by
  rw [mem_pattern]
  rcases hc with hd | rfl
  · have hp : c ≠ '.' := isDigit_ne hd (by decide)
    simp [Stage.start, hd, hp]
  · have hd : ¬ '.'.isDigit := by decide
    simp [Stage.start, hd]

theorem isNumeralChar_start (hc : c.isDigit ∨ c = '.') : isNumeralChar c := by
  rcases hc with hd | rfl
  · simp [isNumeralChar, Char.isAlphanum, hd]
  · rfl

theorem readLexeme_of_mem (hc : c.isDigit ∨ c = '.') (h : run (c :: cs) ∈ pattern.matches')
    (n : Nesting) :
    readLexeme n c cs = ⟨.ok (.numeral ((run (c :: cs)).filter (· ≠ '_'))
      ((run (c :: cs)).contains '.')), n, run (c :: cs), (c :: cs).dropWhile isNumeralChar⟩ := by
  have hnumeral := isNumeralChar_start hc
  have hkept : c ≠ '_' := by
    rcases hc with hd | rfl
    · exact isDigit_ne hd (by decide)
    · decide
  rw [Recognised.run_cons hnumeral] at h ⊢
  rw [mem_pattern_start hc] at h
  have hread := recognised_start hc cs
  rw [readLexeme_numeral hc]
  generalize numeralTail (decide (c = '.')) c.isDigit cs = t at hread
  cases hread with
  | valid _ =>
    rw [List.filter_cons_of_pos (by simpa using hkept), List.dropWhile_cons_of_pos hnumeral,
      Recognised.contains_point, Stage.hasPoint_start]
    rfl
  | invalid hinvalid => exact absurd h hinvalid

theorem readLexeme_of_not_mem (hc : c.isDigit ∨ c = '.') (h : run (c :: cs) ∉ pattern.matches')
    (n : Nesting) :
    ∃ raw taken rest, taken <+: run (c :: cs) ∧
      readLexeme n c cs = ⟨.error (.invalidNumber raw), n, taken, rest⟩ := by
  rw [Recognised.run_cons (isNumeralChar_start hc)] at h ⊢
  rw [mem_pattern_start hc] at h
  have hread := recognised_start hc cs
  rw [readLexeme_numeral hc]
  generalize numeralTail (decide (c = '.')) c.isDigit cs = t at hread
  cases hread with
  | valid hvalid => exact absurd hvalid h
  | invalid _ hvalid htaken =>
    refine ⟨.ofChars (c :: t.raw), c :: t.taken, t.rest, List.cons_prefix_cons.2 ⟨rfl, htaken⟩, ?_⟩
    simp [hvalid]

end Reading

end Numeral

end Reckon
