import Reckon.Proofs.Basic
import Reckon.Proofs.Processor
import Reckon.Proofs.Writing

namespace Reckon

def Immediate.bits : Immediate → UInt32
  | .int v => v.toUInt32
  | .float x => x.bits

/-- The ways a machine that has not halted can take an instruction without an error. -/
theorem Machine.step_cases {m m' : Machine} {i : Instr} (hm : m.halted = false)
    (h : m.step i = (m', none)) :
    (∃ v, i = .push v ∧ m' = m.push v.word) ∨
    (∃ op right left rest w, i = .combine op ∧ m.stack = right :: left :: rest ∧
      op.eval? left right = some w ∧ m' = { m with stack := rest }.push w) ∨
    (∃ w rest output, i = .call dumpRoutine ∧ m.stack = w :: rest ∧
      m.output.write (utf8 (dumpLine w)) = some output ∧
      m' = { m with stack := rest, output }) ∨
    i = .exit ∧ m' = { m with halted := true } := by
  rw [step.eq_def, if_neg (by simp [hm])] at h
  cases i with
  | push v =>
    cases h
    exact .inl ⟨v, rfl, rfl⟩
  | combine op =>
    dsimp only at h
    split at h
    · cases h
    · cases h
    · next right left rest hs =>
      split at h
      · next w hw =>
        cases h
        exact .inr (.inl ⟨op, right, left, rest, w, rfl, hs, hw, rfl⟩)
      · cases h
  | call routine =>
    dsimp only at h
    split at h
    · next hr =>
      subst hr
      split at h
      · cases h
      · next w rest hs =>
        split at h
        · next output ho =>
          cases h
          exact .inr (.inr (.inl ⟨w, rest, output, rfl, hs, ho, rfl⟩))
        · cases h
    · cases h
  | exit =>
    cases h
    exact .inr (.inr (.inr ⟨rfl, rfl⟩))
  | other code => cases h

theorem Machine.maxDepth_le_step {m m' : Machine} {i : Instr} (hm : m.halted = false)
    (h : m.step i = (m', none)) : m.maxDepth ≤ m'.maxDepth := by
  rcases step_cases hm h with ⟨v, -, rfl⟩ | ⟨op, right, left, rest, w, -, -, -, rfl⟩ |
    ⟨w, rest, output, -, -, -, rfl⟩ | ⟨-, rfl⟩
  · exact Nat.le_max_left _ _
  · exact Nat.le_max_left _ _
  · exact Nat.le_refl _
  · exact Nat.le_refl _

theorem Machine.runFrom_cons_cases {m m' : Machine} {i : Instr} {is : List Instr}
    (h : m.runFrom (i :: is) = (m', none)) :
    m.halted = true ∧ m' = m ∨ m.halted = false ∧ ∃ k, m.step i = (k, none) ∧
      { k with pc := k.pc + 1 }.runFrom is = (m', none) := by
  rw [runFrom] at h
  cases hm : m.halted with
  | true =>
    rw [hm] at h
    cases h
    exact .inl ⟨rfl, rfl⟩
  | false =>
    rw [hm] at h
    cases hs : m.step i with
    | mk k e =>
      rw [hs] at h
      cases e with
      | none => exact .inr ⟨rfl, k, rfl, h⟩
      | some e => cases h

theorem Machine.runFrom_halted {m : Machine} (hm : m.halted = true) (code : List Instr) :
    m.runFrom code = (m, none) := by
  cases code with
  | nil => rfl
  | cons i is => simp [runFrom, hm]

theorem Machine.maxDepth_le_runFrom {m m' : Machine} {code : List Instr}
    (h : m.runFrom code = (m', none)) : m.maxDepth ≤ m'.maxDepth := by
  induction code generalizing m with
  | nil =>
    cases h
    exact Nat.le_refl _
  | cons i is ih =>
    rcases runFrom_cons_cases h with ⟨-, rfl⟩ | ⟨hm, k, hs, hr⟩
    · exact Nat.le_refl _
    · exact Nat.le_trans (maxDepth_le_step hm hs) (ih (m := { k with pc := k.pc + 1 }) hr)

theorem Machine.runFrom_append_left {m m' : Machine} {pre post : List Instr}
    (h : m.runFrom (pre ++ post) = (m', none)) :
    ∃ k, m.runFrom pre = (k, none) ∧ k.maxDepth ≤ m'.maxDepth := by
  induction pre generalizing m with
  | nil => exact ⟨m, rfl, maxDepth_le_runFrom h⟩
  | cons i is ih =>
    rcases runFrom_cons_cases h with ⟨hm, rfl⟩ | ⟨hm, k, hs, hr⟩
    · exact ⟨m', runFrom_halted hm _, Nat.le_refl _⟩
    · obtain ⟨k', hk, hd⟩ := ih hr
      refine ⟨k', ?_, hd⟩
      rw [runFrom, hm, hs]
      exact hk

namespace Processor

open Assembly (Reg texts immediateText)

namespace State

@[simp] theorem set_self (s : State) (r : Reg) (w : UInt64) : (s.set r w).regs r = w := by
  simp [set]

theorem set_of_ne (s : State) (w : UInt64) {r q : Reg} (h : q ≠ r) :
    (s.set r w).regs q = s.regs q := by
  simp [set, h]

structure Keeps (t s : State) : Prop where
  pointer : t.regs .rsp = s.regs .rsp
  memory : t.memory = s.memory
  output : t.output = s.output

theorem keeps_set (s : State) {r : Reg} (hr : .rsp ≠ r) (w : UInt64) : (s.set r w).Keeps s :=
  ⟨s.set_of_ne w hr, rfl, rfl⟩

theorem keeps_setFlagged (s : State) {r : Reg} (hr : .rsp ≠ r) (w : UInt64) :
    (s.setFlagged r w).Keeps s :=
  ⟨s.set_of_ne w hr, rfl, rfl⟩

theorem setFlagged_self (s : State) (r : Reg) (w : UInt64) : (s.setFlagged r w).regs r = w :=
  s.set_self r w

theorem keeps_multiply (s : State) (r : Reg) : (s.multiply r).Keeps s :=
  ⟨by simp [multiply, set], rfl, rfl⟩

theorem keeps_compare (s : State) (a b : Reg) : (s.compare a b).Keeps s := ⟨rfl, rfl, rfl⟩

theorem Keeps.setIf {t s : State} (h : t.Keeps s) (condition : Bool) {r : Reg} (hr : .rsp ≠ r)
    (w : UInt64) : (t.setIf condition r w).Keeps s := by
  cases condition with
  | false => exact h
  | true => exact ⟨(t.set_of_ne w hr).trans h.pointer, h.memory, h.output⟩

def equal (s : State) : State :=
  (s.compare .rax .rbx).setIf (s.regs .rax - s.regs .rbx = 0) .rcx (s.regs .rdx)

theorem keeps_equal (s : State) : s.equal.Keeps s :=
  (s.keeps_compare .rax .rbx).setIf _ (by decide) _

theorem equal_rcx (s : State) :
    s.equal.regs .rcx = if s.regs .rax = s.regs .rbx then s.regs .rdx else s.regs .rcx := by
  have hz : s.regs .rax - s.regs .rbx = 0 ↔ s.regs .rax = s.regs .rbx := by
    constructor
    · intro h
      rw [← UInt64.sub_add_cancel (s.regs .rax) (s.regs .rbx), h, UInt64.zero_add]
    · intro h
      rw [h, UInt64.sub_self]
  simp only [equal, hz, setIf, decide_eq_true_eq]
  split
  · exact State.set_self _ _ _
  · rfl

theorem multiply_rax (s : State) (r : Reg) :
    (s.multiply r).regs .rax = s.regs .rax * s.regs r := by
  simp [multiply, set]

def operands (s : State) : State := (s.pop .rax).pop .rbx

theorem pop_of_ne (s : State) {r q : Reg} (h : q ≠ r) (hq : q ≠ .rsp) :
    (s.pop r).regs q = s.regs q := by
  rw [pop, set_of_ne _ _ h, set_of_ne _ _ hq]

end State

/-- The stack in memory: its words lie from the stack pointer on, the top first, and end at
`base`. -/
structure Holds (base : UInt64) (s : State) (stack : List UInt64) : Prop where
  pointer : (s.regs .rsp).toNat + 8 * stack.length = base.toNat
  word : ∀ i w, stack[i]? = some w → s.memory.load (s.regs .rsp + .ofNat (8 * i)) = w

variable {base w : UInt64} {s s' : State} {stack : List UInt64}

theorem load_of_frame {p : UInt64} {i : Nat} {m m' : Memory}
    (hp : p.toNat + 8 * (i + 1) < UInt64.size) (hm : ∀ a, p ≤ a → m' a = m a) :
    m'.load (p + .ofNat (8 * i)) = m.load (p + .ofNat (8 * i)) := by
  unfold Memory.load
  rw [Memory.number_congr]
  intro k hk
  apply hm
  rw [UInt64.le_iff_toNat_le, UInt64.add_assoc, ← UInt64.ofNat_add, UInt64.toNat_add,
    UInt64.toNat_ofNat']
  simp only [UInt64.size] at hp
  omega

namespace Holds

theorem of_frame (h : Holds base s stack) (hr : s'.regs .rsp = s.regs .rsp)
    (hm : ∀ a, s.regs .rsp ≤ a → s'.memory a = s.memory a) : Holds base s' stack := by
  refine ⟨by rw [hr]; exact h.pointer, fun i w hi => ?_⟩
  have hl : i < stack.length := (List.getElem?_eq_some_iff.1 hi).1
  have hp := h.pointer
  have hb := base.toNat_lt_size
  rw [hr, load_of_frame (by omega) hm]
  exact h.word i w hi

theorem keep (h : Holds base s stack) (ht : s'.Keeps s) : Holds base s' stack :=
  h.of_frame ht.pointer fun a _ => congrFun ht.memory a

theorem push (h : Holds base s stack) (hs : 8 ≤ (s.regs .rsp).toNat) (w : UInt64) :
    Holds base (s.push w) (w :: stack) := by
  have hp := h.pointer
  have hb := base.toNat_lt_size
  have hr : (s.push w).regs .rsp = s.regs .rsp - 8 := s.set_self .rsp _
  have ht : (s.regs .rsp - 8).toNat = (s.regs .rsp).toNat - 8 :=
    UInt64.toNat_sub_of_le _ _ (UInt64.le_iff_toNat_le.2 hs)
  refine ⟨by rw [hr, ht, List.length_cons]; omega, fun i v hi => ?_⟩
  rw [hr]
  cases i with
  | zero =>
    cases hi
    rw [show s.regs .rsp - 8 + UInt64.ofNat (8 * 0) = s.regs .rsp - 8 from UInt64.add_zero _]
    exact Memory.load_store
  | succ i =>
    rw [List.getElem?_cons_succ] at hi
    have hl : i < stack.length := (List.getElem?_eq_some_iff.1 hi).1
    have ha : s.regs .rsp - 8 + UInt64.ofNat (8 * (i + 1)) =
        s.regs .rsp + UInt64.ofNat (8 * i) := by
      rw [Nat.mul_add, Nat.add_comm, UInt64.ofNat_add, ← UInt64.add_assoc]
      exact congrArg (· + UInt64.ofNat (8 * i)) (UInt64.sub_add_cancel _ _)
    rw [ha, ← h.word i v hi]
    refine load_of_frame (by omega) fun a hle => Memory.store_of_le ?_
    have hle := UInt64.le_iff_toNat_le.1 hle
    omega

theorem pop {r : Reg} (h : Holds base s (w :: stack)) (hr : .rsp ≠ r) :
    Holds base (s.pop r) stack ∧ (s.pop r).regs r = w := by
  have hp := h.pointer
  have hb := base.toNat_lt_size
  rw [List.length_cons] at hp
  have ht : (s.regs .rsp + 8).toNat = (s.regs .rsp).toNat + 8 := by
    rw [UInt64.toNat_add, show (8 : UInt64).toNat = 8 from rfl]
    exact Nat.mod_eq_of_lt (by simp only [UInt64.size] at hb; omega)
  have hs : (s.pop r).regs .rsp = s.regs .rsp + 8 := by
    rw [State.pop, State.set_of_ne _ _ hr, State.set_self]
  refine ⟨⟨by rw [hs, ht]; omega, fun i v hi => ?_⟩, ?_⟩
  · rw [hs, ← h.word (i + 1) v hi, Nat.mul_add, Nat.add_comm, UInt64.ofNat_add, ← UInt64.add_assoc]
    rfl
  · rw [State.pop, State.set_self, ← h.word 0 w rfl]
    exact congrArg _ (UInt64.add_zero _).symm

theorem operands {left right : UInt64} (h : Holds base s (right :: left :: stack)) :
    Holds base s.operands stack ∧ s.operands.regs .rax = right ∧
      s.operands.regs .rbx = left ∧ 8 ≤ (s.operands.regs .rsp).toNat := by
  obtain ⟨h₁, hr⟩ := h.pop (r := .rax) (by decide)
  obtain ⟨h₂, hl⟩ := h₁.pop (r := .rbx) (by decide)
  have hp := h.pointer
  have hp₂ : (s.operands.regs .rsp).toNat + 8 * stack.length = base.toNat := h₂.pointer
  rw [List.length_cons, List.length_cons] at hp
  refine ⟨h₂, ?_, hl, by omega⟩
  rw [State.operands, State.pop_of_ne _ (by decide) (by decide), hr]

end Holds

def operations : Instr → List Operation
  | .push v => [.push (immediateText v)]
  | .combine .add => [.pop .rax, .pop .rbx, .add .rax .rbx, .push "rax"]
  | .combine .sub => [.pop .rax, .pop .rbx, .sub .rbx .rax, .push "rbx"]
  | .combine .mul => [.pop .rax, .pop .rbx, .mul .rbx, .push "rax"]
  | .combine .eq => [.mov .rcx (.constant 0), .mov .rdx (.constant 1), .pop .rax, .pop .rbx,
      .cmp .rax .rbx, .cmove .rcx .rdx, .push "rcx"]
  | .call routine => if routine = dumpRoutine then [.pop .rdi, .call "dump"] else []
  | .exit => [.mov .rax (.constant 60), .mov .rdi (.constant 0), .syscall]
  | .combine (.other _) | .other _ => []

theorem readLine_push (t : String) : readLine? ("    push " ++ t) = some (some (.push t)) := by
  have hl : ("    push " ++ t).toList = "    push ".toList ++ t.toList := String.toList_append
  have hp : "    push ".toList = [' ', ' ', ' ', ' ', 'p', 'u', 's', 'h', ' '] := by decide
  have hn : String.ofList ['p', 'u', 's', 'h'] = "push" := by decide
  simp [readLine?, hl, hp, hn, operation?]

theorem texts_push (v : Immediate) :
    texts (.push v) = ["    ;; -- push  --", "    push " ++ immediateText v] := by
  have hc : Assembly.Line.text (.comment "push ") = "    ;; -- push  --" := by decide
  have hp : "    " ++ padRight ("push".length + 1) "push" = "    push " := by decide
  simp only [texts, Assembly.lines, List.map_cons, List.map_nil, hc]
  simp only [Assembly.Line.text, Assembly.Op.text, Assembly.Op.parts, ← hp]
  simp [String.append_assoc]

theorem assemble_texts (i : Instr) : assemble (texts i) = some (operations i) := by
  cases i with
  | push v =>
    rw [texts_push, assemble, assemble, readLine_push]
    rfl
  | combine op => cases op with
    | other code => rfl
    | _ => decide
  | call routine =>
    by_cases hr : routine = dumpRoutine
    · subst hr
      decide
    · simp [texts, Assembly.lines, hr, operations, assemble]
  | exit => decide
  | other code => rfl

theorem assemble_append {ls ks : List String} {os ps : List Operation}
    (hl : assemble ls = some os) (hk : assemble ks = some ps) :
    assemble (ls ++ ks) = some (os ++ ps) := by
  induction ls generalizing os with
  | nil =>
    cases hl
    exact hk
  | cons l ls ih =>
    simp only [assemble, Option.bind_eq_bind, Option.bind_eq_some_iff] at hl
    obtain ⟨o, ho, qs, hq, h⟩ := hl
    cases h
    simp [assemble, ho, ih hq]

theorem assemble_code (code : List Instr) :
    assemble (code.flatMap texts) = some (code.flatMap operations) := by
  induction code with
  | nil => rfl
  | cons i is ih => exact assemble_append (assemble_texts i) ih

def State.line (s : State) : Bytes :=
  utf8 (String.ofList (Nat.toDigits 10 (s.regs .rdi).toNat ++ ['\n']))

/-- What generated code relies on: the assembler reads the constants as their bits, and the printing
routine writes the number in `rdi` and leaves the stack as it is. -/
structure Surroundings.Serves (u : Surroundings) (code : List Instr) : Prop where
  constant : ∀ v, .push v ∈ code → u.constant (immediateText v) = some v.bits
  output : ∀ s, (u.dump s).output = s.output ++ s.line
  pointer : ∀ s, (u.dump s).regs .rsp = s.regs .rsp
  memory : ∀ s a, s.regs .rsp ≤ a → (u.dump s).memory a = s.memory a

theorem head_immediateText (v : Immediate) : (immediateText v).toList.head? ≠ some 'r' := by
  cases v with
  | float x =>
    have hl : "__float32__(".toList = '_' :: "_float32__(".toList := by decide
    rw [immediateText, String.append_assoc, String.toList_append, hl]
    simp
  | int n =>
    simp only [immediateText, Immediate.text]
    cases n.toInt with
    | ofNat k =>
      intro h
      rw [show toString (Int.ofNat k) = k.repr from rfl, Nat.toList_repr] at h
      have hd := Nat.isDigit_of_mem_toDigits (by decide) (by decide) (List.mem_of_mem_head? h)
      cases hd
    | negSucc k =>
      have hl : "-".toList = ['-'] := by decide
      rw [show toString (Int.negSucc k) = "-" ++ toString (k + 1) from rfl, String.toList_append,
        hl]
      simp

theorem register_immediateText (v : Immediate) : register? (immediateText v) = none := by
  refine List.find?_eq_none.2 fun r _ h => head_immediateText v ?_
  rw [← of_decide_eq_true h]
  cases r <;> decide

/-- An execution that started at `start` and a machine are at the same point. -/
structure Agrees (start : State) (out : Outcome) (m : Machine) : Prop where
  stack : Holds (start.regs .rsp) out.state m.stack
  output : out.state.output = start.output ++ m.output.content
  status : out.status = if m.halted then some 0 else none

variable {u : Surroundings} {start : State} {m m' : Machine} {i : Instr}

theorem execute_push {v : Immediate} (hc : u.constant (immediateText v) = some v.bits) (s : State) :
    u.execute s (operations (.push v)) = some ⟨s.push v.word, none⟩ := by
  have hw : v.word = .ofBitVec (v.bits.toBitVec.signExtend 64) := by cases v <;> rfl
  simp [operations, Surroundings.execute, Surroundings.step, Surroundings.operand?,
    register_immediateText, hc, hw]

section

variable (u) (s : State) (os : List Operation)

theorem execute_mov (r : Reg) (n : Nat) :
    u.execute s (.mov r (.constant n) :: os) = u.execute (s.set r (.ofNat n)) os := rfl

theorem execute_operands :
    u.execute s (.pop .rax :: .pop .rbx :: os) = u.execute s.operands os := rfl

theorem execute_add (r q : Reg) :
    u.execute s (.add r q :: os) = u.execute (s.setFlagged r (s.regs r + s.regs q)) os := rfl

theorem execute_sub (r q : Reg) :
    u.execute s (.sub r q :: os) = u.execute (s.setFlagged r (s.regs r - s.regs q)) os := rfl

theorem execute_mul (r : Reg) : u.execute s (.mul r :: os) = u.execute (s.multiply r) os := rfl

theorem execute_equal :
    u.execute s (.cmp .rax .rbx :: .cmove .rcx .rdx :: os) = u.execute s.equal os := rfl

end

theorem execute_register (s : State) (r : Reg) :
    u.execute s [.push r.name] = some ⟨s.push (s.regs r), none⟩ := by
  have hr : register? r.name = some r := by cases r <;> decide
  simp [Surroundings.execute, Surroundings.step, Surroundings.operand?, hr]

theorem execute_result {os : List Operation} {p t : State} (r : Reg)
    (hx : u.execute s os = u.execute t [.push r.name]) (h : Holds base p stack)
    (hs : 8 ≤ (p.regs .rsp).toNat) (ht : t.Keeps p) (ho : p.output = s.output)
    (hw : t.regs r = w) :
    ∃ s', u.execute s os = some ⟨s', none⟩ ∧ s'.output = s.output ∧
      Holds base s' (w :: stack) := by
  refine ⟨t.push (t.regs r), hx.trans (execute_register t r), ht.output.trans ho, ?_⟩
  rw [hw]
  exact (h.keep ht).push (ht.pointer ▸ hs) w

theorem execute_combine {op : Combine} {left right : UInt64}
    (h : Holds base s (right :: left :: stack)) (hw : op.eval? left right = some w) :
    ∃ s', u.execute s (operations (.combine op)) = some ⟨s', none⟩ ∧ s'.output = s.output ∧
      Holds base s' (w :: stack) := by
  obtain ⟨h', hr, hl, hs⟩ := h.operands
  cases op with
  | add =>
    have hx : u.execute s (operations (.combine .add)) = _ :=
      (execute_operands u s _).trans (execute_add u _ _ .rax .rbx)
    refine execute_result .rax hx h' hs (State.keeps_setFlagged _ (by decide) _) rfl ?_
    rw [State.setFlagged_self, hr, hl, UInt64.add_comm]
    exact Option.some.inj hw
  | sub =>
    have hx : u.execute s (operations (.combine .sub)) = _ :=
      (execute_operands u s _).trans (execute_sub u _ _ .rbx .rax)
    refine execute_result .rbx hx h' hs (State.keeps_setFlagged _ (by decide) _) rfl ?_
    rw [State.setFlagged_self, hr, hl]
    exact Option.some.inj hw
  | mul =>
    have hx : u.execute s (operations (.combine .mul)) = _ :=
      (execute_operands u s _).trans (execute_mul u _ _ .rbx)
    refine execute_result .rax hx h' hs (State.keeps_multiply _ .rbx) rfl ?_
    rw [State.multiply_rax, hr, hl, UInt64.mul_comm]
    exact Option.some.inj hw
  | eq =>
    -- The two registers of the result are loaded before the operands are taken.
    obtain ⟨p, hp⟩ : ∃ p, p = (s.set .rcx (.ofNat 0)).set .rdx (.ofNat 1) := ⟨_, rfl⟩
    have h₀ : Holds base p (right :: left :: stack) := by
      rw [hp]
      exact (h.keep (s.keeps_set (by decide) _)).keep (State.keeps_set _ (by decide) _)
    obtain ⟨h', hr, hl, hs⟩ := h₀.operands
    have hc : p.operands.regs .rcx = 0 := by simp [hp, State.operands, State.pop, State.set]
    have hd : p.operands.regs .rdx = 1 := by simp [hp, State.operands, State.pop, State.set]
    have hx : u.execute s (operations (.combine .eq)) =
        u.execute p.operands.equal [.push "rcx"] := by
      rw [operations, execute_mov, execute_mov, ← hp, execute_operands, execute_equal]
    have ho : p.operands.output = s.output := by rw [hp]; rfl
    refine execute_result .rcx hx h' hs (State.keeps_equal _) ho ?_
    rw [State.equal_rcx, hr, hl, hc, hd, ← Option.some.inj hw]
    simp only [eq_comm]
  | other code => cases hw

/-- The code of an instruction brings the processor where the machine goes. The deepest stack has to
fit below the place where it starts. -/
theorem Agrees.step (hu : u.Serves [i]) (hm : m.halted = false) (hs : m.step i = (m', none))
    (hroom : 8 * m'.maxDepth ≤ (start.regs .rsp).toNat) (h : Agrees start ⟨s, none⟩ m) :
    ∃ out, u.execute s (operations i) = some out ∧ Agrees start out m' := by
  have hp : (s.regs .rsp).toNat + 8 * m.stack.length = (start.regs .rsp).toNat := h.stack.pointer
  rcases Machine.step_cases hm hs with ⟨v, rfl, rfl⟩ |
    ⟨op, right, left, rest, w, rfl, hst, hw, rfl⟩ | ⟨w, rest, output, rfl, hst, ho, rfl⟩ |
    ⟨rfl, rfl⟩
  · have hd : (m.stack.length + 1) ≤ (m.push v.word).maxDepth := Nat.le_max_right _ _
    have hs : 8 ≤ (s.regs .rsp).toNat := by omega
    exact ⟨_, execute_push (hu.constant v (by simp)) s, h.stack.push hs v.word, h.output,
      by simp [Machine.push, hm]⟩
  · obtain ⟨s', hx, ho, hh⟩ := execute_combine (u := u) (hst ▸ h.stack) hw
    exact ⟨_, hx, hh, ho.trans h.output, by simp [Machine.push, hm]⟩
  · obtain ⟨hh, hr⟩ := (hst ▸ h.stack : Holds _ s _).pop (r := .rdi) (by decide)
    refine ⟨⟨u.dump (s.pop .rdi), none⟩, rfl, hh.of_frame (hu.pointer _) (hu.memory _), ?_, ?_⟩
    · have hs : s.output = start.output ++ m.output.content := h.output
      rw [hu.output, State.line, hr, Sink.content_of_write ho, dumpLine_eq, ← List.append_assoc,
        ← hs]
      rfl
    · simp [hm]
  · refine ⟨⟨(s.set .rax (.ofNat 60)).set .rdi (.ofNat 0), some 0⟩, ?_, ?_, h.output, rfl⟩
    · rw [operations, execute_mov, execute_mov]
      simp [Surroundings.execute, Surroundings.step, State.set]
    · exact (h.stack.keep (s.keeps_set (by decide) _)).keep (State.keeps_set _ (by decide) _)

theorem execute_append (s : State) (os ps : List Operation) :
    u.execute s (os ++ ps) = match u.execute s os with
      | some ⟨s', none⟩ => u.execute s' ps
      | r => r := by
  induction os generalizing s with
  | nil => rfl
  | cons o os ih =>
    rw [List.cons_append, Surroundings.execute, Surroundings.execute]
    rcases u.step s o with _ | ⟨s', _ | status⟩
    · rfl
    · exact ih s'
    · rfl

theorem Surroundings.Serves.mono {code code' : List Instr} (h : u.Serves code)
    (hc : ∀ i ∈ code', i ∈ code) : u.Serves code' :=
  ⟨fun v hv => h.constant v (hc _ hv), h.output, h.pointer, h.memory⟩

theorem Agrees.run {code : List Instr} (hu : u.Serves code) (hr : m.runFrom code = (m', none))
    (hroom : 8 * m'.maxDepth ≤ (start.regs .rsp).toNat) (h : Agrees start ⟨s, none⟩ m) :
    ∃ out, u.execute s (code.flatMap operations) = some out ∧ Agrees start out m' := by
  induction code generalizing m s with
  | nil =>
    cases hr
    exact ⟨_, rfl, h⟩
  | cons i is ih =>
    rcases Machine.runFrom_cons_cases hr with ⟨hm, -⟩ | ⟨hm, k, hs, hr⟩
    · have hst := h.status
      rw [hm] at hst
      cases hst
    · have hd : k.maxDepth ≤ m'.maxDepth :=
        Machine.maxDepth_le_runFrom (m := { k with pc := k.pc + 1 }) hr
      have hk : 8 * k.maxDepth ≤ (start.regs .rsp).toNat := by omega
      obtain ⟨⟨s', status⟩, hx, ha⟩ := h.step (hu.mono (by simp)) hm hs hk
      rw [List.flatMap_cons, execute_append, hx]
      cases hh : k.halted with
      | false =>
        obtain rfl : status = none := by simpa [hh] using ha.status
        exact ih (hu.mono fun j hj => List.mem_cons_of_mem i hj) hr ⟨ha.stack, ha.output, ha.status⟩
      | true =>
        obtain rfl : status = some 0 := by simpa [hh] using ha.status
        rw [Machine.runFrom_halted (m := { k with pc := k.pc + 1 }) hh] at hr
        cases hr
        exact ⟨_, rfl, ha.stack, ha.output, ha.status⟩

/-- The lines that are written for instructions do on the processor what the instructions do on the
machine, for every run that succeeds and at each of its instructions. The assembler and the printing
routine are as generated code relies on them to be, and the deepest stack has room below the place
where it starts. -/
theorem generated_code_refines_machine {code : List Instr} {m : Machine}
    (hrun : ({} : Machine).run code = (m, none)) (hu : u.Serves code)
    (hroom : 8 * m.maxDepth ≤ (start.regs .rsp).toNat) :
    (code.foldl (fun w i => (w.instr i).1) (Assembly.Writer.ofSink {})).flush.1.sink.content =
        Assembly.textBytes (code.flatMap texts) ∧
      ∀ pre post, code = pre ++ post → ∃ os out, assemble (pre.flatMap texts) = some os ∧
        u.execute start os = some out ∧ Agrees start out (({} : Machine).run pre).1 := by
  refine ⟨Assembly.Writer.flush_instrs code, ?_⟩
  rintro pre post rfl
  obtain ⟨k, hk, hd⟩ := Machine.runFrom_append_left hrun
  have hs : Agrees start ⟨start, none⟩ ({} : Machine) :=
    ⟨⟨rfl, nofun⟩, (List.append_nil _).symm, rfl⟩
  obtain ⟨out, hx, ha⟩ := Agrees.run (hu.mono fun i hi => List.mem_append_left post hi) hk
    (Nat.le_trans (Nat.mul_le_mul_left 8 hd) hroom) hs
  refine ⟨_, out, assemble_code pre, hx, ?_⟩
  rw [Machine.run, hk]
  exact ha

/-- A product and the end of the process: the assembler here reads decimal integers, and the
printing routine only prints. -/
theorem generated_code_refines_machine_product :
    let code : List Instr :=
      [.push (.int 7), .push (.int (-2)), .combine .mul, .call dumpRoutine, .exit]
    let u : Surroundings :=
      { constant := fun t => (int32? t.toList).map Int32.toUInt32
        dump := fun s => { s with output := s.output ++ s.line } }
    let start : State := ⟨fun _ => 4096, fun _ => 0, none, []⟩
    u.Serves code ∧ ∃ os out, assemble (code.flatMap texts) = some os ∧
      u.execute start os = some out ∧ out.status = some 0 ∧
      out.state.output = utf8 "18446744073709551602\n" := by
  intro code u start
  have hu : u.Serves code := by
    refine ⟨fun v hv => ?_, fun s => rfl, fun s => rfl, fun s a _ => rfl⟩
    simp only [code, List.mem_cons, Instr.push.injEq, reduceCtorEq, List.not_mem_nil,
      or_false] at hv
    rcases hv with rfl | rfl <;> decide
  let m := (({} : Machine).run code).1
  have hm : ({} : Machine).run code = (m, none) := by decide
  have hroom : 8 * m.maxDepth ≤ (start.regs .rsp).toNat := by decide
  obtain ⟨-, hb⟩ := generated_code_refines_machine hm hu hroom
  obtain ⟨os, out, ha, hx, hh⟩ := hb code [] (List.append_nil _).symm
  refine ⟨hu, os, out, ha, hx, ?_, ?_⟩
  · rw [hh.status]
    decide
  · rw [hh.output]
    decide

end Processor

end Reckon
