import Reckon.Proofs.DumpRoutine
import Reckon.Proofs.Evaluation
import Reckon.Proofs.Refinement

namespace Reckon

def Combine.known : Combine → Bool
  | .add | .sub | .mul | .eq => true
  | .other _ => false

theorem Combine.isSome_eval? (op : Combine) (left right : UInt64) :
    (op.eval? left right).isSome = op.known := by
  cases op <;> rfl

namespace Instr

/-- How many words an instruction takes off the stack, before anything else can go wrong. -/
def takes : Instr → Nat
  | .combine _ => 2
  | .call routine => if routine = dumpRoutine then 1 else 0
  | .push _ | .exit | .other _ => 0

/-- How many words an instruction leaves where it finds some; none if it fails. -/
def depthAfter? (depth : Nat) : Instr → Option Nat
  | .push _ => some (depth + 1)
  | .combine op => if op.known ∧ 2 ≤ depth then some (depth - 1) else none
  | .call routine => if routine = dumpRoutine ∧ 1 ≤ depth then some (depth - 1) else none
  | .exit => some depth
  | .other _ => none

def prints (i : Instr) : Nat := if i = .call dumpRoutine then 1 else 0

def outline : Instr → Instr
  | .push _ => .push (.int 0)
  | i => i

end Instr

/-- What a walk over instructions has found: how many words there are where it ends, the most there
were, how many lines are printed, and which instruction failed, if one did. -/
structure Walk where
  depth : Nat
  peak : Nat
  lines : Nat := 0
  failed : Option Nat := none
  deriving DecidableEq, Repr

def walk (depth : Nat) : List Instr → Walk
  | [] => { depth, peak := depth }
  | i :: is =>
    if i = .exit then { depth, peak := depth }
    else
      match i.depthAfter? depth with
      | none => { depth, peak := depth, failed := some 0 }
      | some d =>
        let w := walk d is
        { depth := w.depth
          peak := max depth w.peak
          lines := i.prints + w.lines
          failed := w.failed.map (· + 1) }

section Outline

variable {depth d k : Nat} {i i' : Instr} {code code' : List Instr}

theorem walk_exit (depth : Nat) (is : List Instr) :
    walk depth (.exit :: is) = { depth, peak := depth } := rfl

theorem walk_fails (hi : i ≠ .exit) (hd : i.depthAfter? depth = none) (is : List Instr) :
    walk depth (i :: is) = { depth, peak := depth, failed := some 0 } := by
  rw [walk, if_neg hi, hd]

theorem walk_goes_on (hi : i ≠ .exit) (hd : i.depthAfter? depth = some d) (is : List Instr) :
    walk depth (i :: is) =
      { depth := (walk d is).depth
        peak := max depth (walk d is).peak
        lines := i.prints + (walk d is).lines
        failed := (walk d is).failed.map (· + 1) } := by
  rw [walk, if_neg hi, hd]

theorem Instr.takes_outline (i : Instr) : i.outline.takes = i.takes := by
  cases i <;> rfl

theorem Instr.depthAfter?_outline (depth : Nat) (i : Instr) :
    i.outline.depthAfter? depth = i.depthAfter? depth := by
  cases i <;> rfl

theorem Instr.prints_outline (i : Instr) : i.outline.prints = i.prints := by
  cases i <;> rfl

theorem Instr.outline_eq_exit (i : Instr) : i.outline = .exit ↔ i = .exit := by
  cases i <;> simp [outline]

theorem walk_outline (depth : Nat) (code : List Instr) :
    walk depth (code.map Instr.outline) = walk depth code := by
  induction code generalizing depth with
  | nil => rfl
  | cons i is ih =>
    rw [List.map_cons, walk, walk]
    simp only [i.outline_eq_exit, i.depthAfter?_outline, i.prints_outline, ih]

theorem walk_congr (h : code'.map Instr.outline = code.map Instr.outline) :
    walk depth code' = walk depth code := by
  rw [← walk_outline depth code', h, walk_outline]

theorem takes_congr (h : code'.map Instr.outline = code.map Instr.outline)
    (hi' : code'[k]? = some i') (hi : code[k]? = some i) : i'.takes = i.takes := by
  have houtline : some i'.outline = some i.outline := by
    rw [← Option.map_some, ← Option.map_some, ← hi', ← hi, ← List.getElem?_map,
      ← List.getElem?_map, h]
  rw [← i'.takes_outline, Option.some.inj houtline, i.takes_outline]

end Outline

def Sink.lines (s : Sink) : Nat := s.content.count 10

theorem Routine.count_digitBytes (n : Nat) : (digitBytes n).count 10 = 0 := by
  have hdigit : ∀ d < 10, [UInt8.ofNat (48 + d)].count 10 = 0 := by decide
  induction n using Nat.strongRecOn with
  | _ n ih =>
    by_cases hn : n < 10
    · rw [digitBytes_of_lt hn]
      exact hdigit n hn
    · rw [digitBytes_of_le (by omega), List.count_append, ih _ (by omega),
        hdigit _ (by omega)]

theorem Sink.lines_received (s : Sink) (w : UInt64) :
    (s.received [utf8 (dumpLine w)]).lines = s.lines + 1 := by
  rw [lines, lines, received, List.flatten_singleton, List.count_append, Routine.utf8_dumpLine,
    List.count_append, Routine.count_digitBytes]
  rfl

theorem Sink.write_of_unlimited {s : Sink} (h : s.limit = none) (bytes : Bytes) :
    s.write bytes = some (s.received [bytes]) := by
  apply write_of_takes
  intro n hn
  cases h.symm.trans hn

namespace Machine

variable {m : Machine} {i : Instr} {d : Nat}

/-- A machine that goes on, with a sink that refuses nothing, and whose record is not behind its
stack. -/
structure Live (m : Machine) : Prop where
  running : m.halted = false
  unlimited : m.output.limit = none
  recorded : m.stack.length ≤ m.maxDepth

theorem Live.step_succeeds (h : m.Live) (hi : i ≠ .exit)
    (hd : i.depthAfter? m.stack.length = some d) :
    ∃ m', m.step i = (m', none) ∧ m'.Live ∧ m'.pc = m.pc ∧ m'.stack.length = d ∧
      m'.maxDepth = max m.maxDepth d ∧ m'.output.lines = m.output.lines + i.prints := by
  obtain ⟨hrun, hfree, hrecord⟩ := h
  rw [step.eq_def, if_neg (by simp [hrun])]
  cases i with
  | push v =>
    cases hd
    exact ⟨m.push v.word, rfl, ⟨hrun, hfree, Nat.le_max_right _ _⟩, rfl, rfl, rfl, rfl⟩
  | combine op =>
    rw [Instr.depthAfter?] at hd
    split at hd
    case isFalse => cases hd
    case isTrue hop =>
      cases hd
      rcases hs : m.stack with _ | ⟨right, _ | ⟨left, rest⟩⟩
      · simp [hs] at hop
      · simp [hs] at hop
      · obtain ⟨w, hw⟩ := Option.isSome_iff_exists.1 ((op.isSome_eval? left right).trans hop.1)
        simp only [hw]
        exact ⟨_, rfl, ⟨hrun, hfree, Nat.le_max_right _ _⟩, rfl, rfl, rfl, rfl⟩
  | call routine =>
    rw [Instr.depthAfter?] at hd
    split at hd
    case isFalse => cases hd
    case isTrue hcall =>
      obtain ⟨rfl, hdepth⟩ := hcall
      cases hd
      cases hs : m.stack with
      | nil => simp [hs] at hdepth
      | cons w rest =>
        simp only [if_true, Sink.write_of_unlimited hfree]
        rw [hs, List.length_cons] at hrecord
        refine ⟨_, rfl, ⟨hrun, hfree, Nat.le_of_succ_le hrecord⟩, rfl, rfl, ?_, ?_⟩
        · exact (Nat.max_eq_left (Nat.le_of_succ_le hrecord)).symm
        · exact m.output.lines_received w
  | exit => exact absurd rfl hi
  | other code => cases hd

/-- An instruction that the walk does not get past fails. It has taken its words off as far as
there were any, and too few of them come before anything else that is wrong with it. -/
theorem Live.step_fails (h : m.Live) (hd : i.depthAfter? m.stack.length = none) :
    ∃ m' error, m.step i = (m', some error) ∧ m'.pc = m.pc ∧
      m'.stack.length = m.stack.length - i.takes ∧ m'.maxDepth = m.maxDepth ∧
      m'.output = m.output ∧ (error = .stackUnderflow ↔ m.stack.length < i.takes) := by
  rw [step.eq_def, if_neg (by simp [h.running])]
  cases i with
  | push v => cases hd
  | combine op =>
    -- The operation is looked at only when both words are off, so an unknown one starves too.
    rw [Instr.depthAfter?] at hd
    rcases hs : m.stack with _ | ⟨right, _ | ⟨left, rest⟩⟩
    · exact ⟨m, _, rfl, rfl, by simp [hs], rfl, rfl, by simp [Instr.takes]⟩
    · exact ⟨_, _, rfl, rfl, rfl, rfl, rfl, by simp [Instr.takes]⟩
    · have hop : (op.eval? left right).isSome = false := by
        rw [op.isSome_eval?]
        simpa [hs] using hd
      rw [Option.isSome_eq_false_iff, Option.isNone_iff_eq_none] at hop
      simp only [hop]
      exact ⟨_, _, rfl, rfl, rfl, rfl, rfl, by simp [Instr.takes]⟩
  | call routine =>
    rw [Instr.depthAfter?] at hd
    by_cases hr : routine = dumpRoutine
    · cases hs : m.stack with
      | nil =>
        simp only [hr, if_true]
        exact ⟨m, _, rfl, rfl, by simp [hs], rfl, rfl, by simp [Instr.takes]⟩
      | cons w rest => simp [hr, hs] at hd
    · simp only [hr, if_false]
      exact ⟨m, _, rfl, rfl, by simp [Instr.takes, hr], rfl, rfl, by simp [Instr.takes, hr]⟩
  | exit => cases hd
  | other code => exact ⟨m, _, rfl, rfl, rfl, rfl, rfl, by simp [Instr.takes]⟩

/-- A run from a machine, as a walk over its instructions foretells it. -/
structure Foretold (m : Machine) (code : List Instr) (w : Walk)
    (r : Machine × Option RunError) : Prop where
  peak : r.1.maxDepth = max m.maxDepth w.peak
  lines : r.1.output.lines = m.output.lines + w.lines
  succeeds : w.failed = none → r.2 = none ∧ r.1.stack.length = w.depth
  fails : ∀ k, w.failed = some k → ∃ i error, code[k]? = some i ∧
    r.2 = some ⟨m.pc + k, i, error⟩ ∧ (error = .stackUnderflow ↔ w.depth < i.takes) ∧
    r.1.stack.length = w.depth - i.takes

variable {is code : List Instr}

theorem Live.foretold_end (h : m.Live) {m' : Machine} (hstack : m'.stack = m.stack)
    (hdepth : m'.maxDepth = m.maxDepth) (houtput : m'.output = m.output) (code : List Instr) :
    Foretold m code { depth := m.stack.length, peak := m.stack.length } (m', none) where
  peak := by rw [hdepth, Nat.max_eq_left h.recorded]
  lines := by rw [houtput, Nat.add_zero]
  succeeds := fun _ => ⟨rfl, by rw [hstack]⟩
  fails := fun k hk => absurd hk (Option.some_ne_none k).symm

theorem Live.foretold_fails (h : m.Live) (hi : i ≠ .exit)
    (hd : i.depthAfter? m.stack.length = none) (is : List Instr) :
    Foretold m (i :: is) (walk m.stack.length (i :: is)) (m.runFrom (i :: is)) := by
  obtain ⟨m', error, hs, hpc, hstack, hdepth, houtput, herror⟩ := h.step_fails hd
  rw [walk_fails hi hd, runFrom_cons_error h.running hs]
  constructor
  case peak => rw [hdepth, Nat.max_eq_left h.recorded]
  case lines => rw [houtput, Nat.add_zero]
  case succeeds =>
    intro hnone
    cases hnone
  case fails =>
    intro k hk
    cases hk
    exact ⟨i, error, rfl, by rw [hpc, Nat.add_zero], herror, hstack⟩

theorem Foretold.cons {m' : Machine} {w : Walk} {r : Machine × Option RunError}
    (h : Foretold { m' with pc := m'.pc + 1 } is w r) (hm : m.Live) (hpc : m'.pc = m.pc)
    (hdepth : m'.maxDepth = max m.maxDepth m'.stack.length) (hpeak : m'.stack.length ≤ w.peak)
    (hlines : m'.output.lines = m.output.lines + i.prints) :
    Foretold m (i :: is)
      { depth := w.depth
        peak := max m.stack.length w.peak
        lines := i.prints + w.lines
        failed := w.failed.map (· + 1) } r where
  peak := by
    have hrecord := hm.recorded
    have hafter : r.1.maxDepth = max m'.maxDepth w.peak := h.peak
    dsimp only
    omega
  lines := by
    have hafter : r.1.output.lines = m'.output.lines + w.lines := h.lines
    rw [hafter, hlines, Nat.add_assoc]
  succeeds := fun hnone => h.succeeds (Option.map_eq_none_iff.1 hnone)
  fails := by
    intro k hk
    obtain ⟨k, hfailed, rfl⟩ := Option.map_eq_some_iff.1 hk
    obtain ⟨i, error, hcode, herror, hrest⟩ := h.fails k hfailed
    refine ⟨i, error, hcode, ?_, hrest⟩
    rw [herror, ← hpc, Nat.add_assoc, Nat.add_comm 1 k]

theorem depth_le_peak (depth : Nat) (code : List Instr) : depth ≤ (walk depth code).peak := by
  fun_cases walk depth code with
  | case4 => exact Nat.le_max_left _ _
  | _ => exact Nat.le_refl _

/-- Every run of a machine that goes on is the one that the walk over its instructions foretells. -/
theorem Live.foretold (h : m.Live) (code : List Instr) :
    Foretold m code (walk m.stack.length code) (m.runFrom code) := by
  induction code generalizing m with
  | nil => exact h.foretold_end rfl rfl rfl []
  | cons i is ih =>
    by_cases hi : i = .exit
    · subst hi
      have hs : m.step .exit = ({ m with halted := true }, none) := by
        rw [step.eq_def, if_neg (by simp [h.running])]
      rw [walk_exit, runFrom_cons h.running hs, runFrom_halted rfl]
      apply h.foretold_end
      all_goals rfl
    · cases hd : i.depthAfter? m.stack.length with
      | none => exact h.foretold_fails hi hd is
      | some d =>
        obtain ⟨m', hs, hlive, hpc, rfl, hdepth, hlines⟩ := h.step_succeeds hi hd
        rw [walk_goes_on hi hd, runFrom_cons h.running hs]
        have hrest := ih (m := { m' with pc := m'.pc + 1 })
          ⟨hlive.running, hlive.unlimited, hlive.recorded⟩
        exact hrest.cons h hpc hdepth (depth_le_peak _ _) hlines

theorem Foretold.success_iff {w : Walk} {r : Machine × Option RunError}
    (h : Foretold m code w r) : r.2 = none ↔ w.failed = none := by
  constructor
  · intro hr
    cases hf : w.failed with
    | none => rfl
    | some k =>
      obtain ⟨i, error, -, herror, -⟩ := h.fails k hf
      cases hr.symm.trans herror
  · intro hf
    exact (h.succeeds hf).1

theorem Foretold.agrees {code' : List Instr} {w : Walk} {r r' : Machine × Option RunError}
    (h : Foretold m code w r) (h' : Foretold m code' w r')
    (hshape : code'.map Instr.outline = code.map Instr.outline) :
    r'.2.map RunError.pc = r.2.map RunError.pc ∧ r'.1.stack.length = r.1.stack.length := by
  cases hf : w.failed with
  | none =>
    obtain ⟨hr, hlength⟩ := h.succeeds hf
    obtain ⟨hr', hlength'⟩ := h'.succeeds hf
    rw [hr, hr', hlength, hlength']
    exact ⟨rfl, rfl⟩
  | some k =>
    obtain ⟨i, error, hi, hr, -, hlength⟩ := h.fails k hf
    obtain ⟨i', error', hi', hr', -, hlength'⟩ := h'.fails k hf
    rw [hr, hr', hlength, hlength', takes_congr hshape hi' hi]
    exact ⟨rfl, rfl⟩

/-- The shapes of instructions decide how a new machine with a sink that refuses nothing runs them.
It succeeds if the walk meets no failing instruction before it ends, and else fails at the first
one; for lack of words exactly if that takes more than there are. The walk also tells how deep the
stack got and, of a run that succeeds, how deep it is. Constants have no influence on any of this,
nor on the number of lines. -/
theorem run_follows_walk (code : List Instr) (sink : Sink) (hsink : sink.limit = none) :
    let r := { output := sink : Machine }.run code
    let w := walk 0 code
    (r.2 = none ↔ w.failed = none) ∧
    (∀ k, w.failed = some k → ∃ i error, code[k]? = some i ∧ r.2 = some ⟨k, i, error⟩ ∧
      (error = .stackUnderflow ↔ w.depth < i.takes)) ∧
    (r.2 = none → r.1.stack.length = w.depth) ∧ r.1.maxDepth = w.peak ∧
    r.1.output.lines = sink.lines + w.lines ∧
    ∀ code', code'.map Instr.outline = code.map Instr.outline →
      let r' := { output := sink : Machine }.run code'
      r'.2.map RunError.pc = r.2.map RunError.pc ∧ r'.1.maxDepth = r.1.maxDepth ∧
        r'.1.stack.length = r.1.stack.length ∧ r'.1.output.lines = r.1.output.lines := by
  intro r w
  have hlive : Live { output := sink } := ⟨rfl, hsink, Nat.le_refl 0⟩
  have hrun : Foretold { output := sink } code w r := hlive.foretold code
  refine ⟨hrun.success_iff, ?_, ?_, ?_, hrun.lines, ?_⟩
  · intro k hk
    obtain ⟨i, error, hi, hr, herror, -⟩ := hrun.fails k hk
    exact ⟨i, error, hi, hr.trans (by rw [Nat.zero_add]), herror⟩
  · intro hr
    exact (hrun.succeeds (hrun.success_iff.1 hr)).2
  · exact hrun.peak.trans (Nat.zero_max _)
  · intro code' hshape r'
    have hwalk : walk 0 code' = w := walk_congr hshape
    have hrun' : Foretold { output := sink } code' w r' := by
      rw [← hwalk]
      exact hlive.foretold code'
    obtain ⟨hpc, hlength⟩ := hrun.agrees hrun' hshape
    exact ⟨hpc, hrun'.peak.trans hrun.peak.symm, hlength, hrun'.lines.trans hrun.lines.symm⟩

/-- An unknown operation on one word: for want of the other it fails as a known one would, after a
line has been printed. A constant of the other kind changes nothing, nor does what comes later. -/
theorem run_follows_walk_unknown_combine :
    let code : List Instr := [.push (.int 7), .push (.float ⟨0x7FC00000⟩), .call dumpRoutine,
      .combine (.other 9), .exit, .other 3]
    let code' : List Instr := [.push (.int (-1)), .push (.int 2), .call dumpRoutine,
      .combine (.other 9), .exit, .other 3]
    let m := { output := { content := utf8 "a\n" } : Machine }
    walk 0 code = { depth := 1, peak := 2, lines := 1, failed := some 3 } ∧
    (m.run code).2 = some ⟨3, .combine (.other 9), .stackUnderflow⟩ ∧
    (m.run code).1.maxDepth = 2 ∧ (m.run code).1.output.lines = 2 ∧
    (m.run code').2.map RunError.pc = some 3 ∧
    (m.run code').1.output.lines = (m.run code).1.output.lines := by
  intro code code' m
  have hwalk : walk 0 code = { depth := 1, peak := 2, lines := 1, failed := some 3 } := by decide
  have hshape : code'.map Instr.outline = code.map Instr.outline := by decide
  obtain ⟨-, hfails, -, hpeak, hlines, hsame⟩ := run_follows_walk code m.output rfl
  obtain ⟨i, error, hi, hr, herror⟩ := hfails 3 (by rw [hwalk])
  cases hi
  obtain rfl := herror.2 (by rw [hwalk]; decide)
  obtain ⟨hpc, -, -, hlines'⟩ := hsame code' hshape
  refine ⟨hwalk, hr, ?_, ?_, ?_, hlines'⟩
  · exact hpeak.trans (by rw [hwalk])
  · exact hlines.trans (by rw [hwalk]; decide)
  · exact hpc.trans (congrArg _ hr)

end Machine

end Reckon
