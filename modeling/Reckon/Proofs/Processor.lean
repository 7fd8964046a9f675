import Reckon.Assembly.Writer

namespace Reckon.Processor

open Assembly (Reg)

abbrev Memory := UInt64 → UInt8

namespace Memory

/-- The number that `n` bytes from an address on make, the lowest first. -/
def number (m : Memory) : Nat → UInt64 → Nat
  | 0, _ => 0
  | n + 1, a => (m a).toNat + 256 * m.number n (a + 1)

def load (m : Memory) (a : UInt64) : UInt64 := .ofNat (m.number 8 a)

def store (m : Memory) (a w : UInt64) : Memory := fun b =>
  if (b - a).toNat < 8 then .ofNat (w.toNat / Nat.pow 256 (b - a).toNat) else m b

variable {m m' : Memory} {a b w : UInt64}

theorem number_congr {n : Nat} (h : ∀ k < n, m' (a + .ofNat k) = m (a + .ofNat k)) :
    m'.number n a = m.number n a := by
  induction n generalizing a with
  | zero => rfl
  | succ n ih =>
    have h0 := h 0 (Nat.succ_pos n)
    rw [show a + UInt64.ofNat 0 = a from UInt64.add_zero a] at h0
    rw [number, number, h0, ih]
    intro k hk
    have hs := h (k + 1) (Nat.succ_lt_succ hk)
    rwa [UInt64.ofNat_add, UInt64.add_comm (UInt64.ofNat k), ← UInt64.add_assoc] at hs

theorem store_of_le (h : a.toNat + 8 ≤ b.toNat) : m.store a w b = m b := by
  have hs : (b - a).toNat = b.toNat - a.toNat :=
    UInt64.toNat_sub_of_le b a (UInt64.le_iff_toNat_le.2 (by omega))
  exact if_neg (by omega)

theorem store_add {k : Nat} (hk : k < 8) :
    m.store a w (a + .ofNat k) = .ofNat (w.toNat / Nat.pow 256 k) := by
  have hs : (a + UInt64.ofNat k - a).toNat = k := by
    rw [UInt64.add_comm, UInt64.add_sub_cancel, UInt64.toNat_ofNat']
    omega
  simp only [store, hs, hk, if_true]

/-- The bytes of a stored word are its digits in base 256. -/
theorem number_store (n k : Nat) (h : k + n ≤ 8) :
    (m.store a w).number n (a + .ofNat k) = w.toNat / Nat.pow 256 k % Nat.pow 256 n := by
  induction n generalizing k with
  | zero => simp [number, Nat.mod_one]
  | succ n ih =>
    have hk : a + UInt64.ofNat k + 1 = a + UInt64.ofNat (k + 1) := by
      rw [UInt64.ofNat_add, ← UInt64.add_assoc]
      rfl
    have hd : w.toNat / Nat.pow 256 (k + 1) = w.toNat / Nat.pow 256 k / 256 :=
      (Nat.div_div_eq_div_mul _ _ _).symm
    have hm : Nat.pow 256 (n + 1) = 256 * Nat.pow 256 n := Nat.mul_comm _ _
    rw [number, store_add (by omega), hk, ih (k + 1) (by omega), UInt8.toNat_ofNat', hd, hm,
      Nat.mod_mul]

@[simp] theorem load_store : (m.store a w).load a = w := by
  have h := number_store (m := m) (a := a) (w := w) 8 0 (by omega)
  rw [show a + UInt64.ofNat 0 = a from UInt64.add_zero a] at h
  apply UInt64.toNat_inj.1
  have hw := w.toNat_lt
  simp only [load, h, UInt64.toNat_ofNat', Nat.pow_eq, Nat.pow_zero, Nat.div_one]
  omega

end Memory

/-- Registers, memory, the zero flag where it is defined, and what has been written. -/
structure State where
  regs : Reg → UInt64
  memory : Memory
  zero : Option Bool
  output : Bytes

namespace State

def set (s : State) (r : Reg) (w : UInt64) : State :=
  { s with regs := fun q => if q = r then w else s.regs q }

def push (s : State) (w : UInt64) : State :=
  let top := s.regs .rsp - 8
  { s.set .rsp top with memory := s.memory.store top w }

def pop (s : State) (r : Reg) : State :=
  (s.set .rsp (s.regs .rsp + 8)).set r (s.memory.load (s.regs .rsp))

def setFlagged (s : State) (r : Reg) (w : UInt64) : State :=
  { s.set r w with zero := some (w = 0) }

def multiply (s : State) (r : Reg) : State :=
  let product := (s.regs .rax).toNat * (s.regs r).toNat
  { (s.set .rax (.ofNat product)).set .rdx (.ofNat (product / UInt64.size)) with zero := none }

def compare (s : State) (a b : Reg) : State :=
  { s with zero := some (s.regs a - s.regs b = 0) }

def setIf (s : State) (condition : Bool) (r : Reg) (w : UInt64) : State :=
  if condition then s.set r w else s

end State

inductive Source where
  | reg (r : Reg)
  | constant (n : Nat)
  deriving DecidableEq

/-- The operations of generated code. What is pushed is a register or a constant, by its text. -/
inductive Operation where
  | push (operand : String)
  | pop (r : Reg)
  | mov (dst : Reg) (src : Source)
  | add (dst src : Reg)
  | sub (dst src : Reg)
  | mul (r : Reg)
  | cmp (a b : Reg)
  | cmove (dst src : Reg)
  | call (label : String)
  | syscall
  deriving DecidableEq

def register? (name : String) : Option Reg :=
  [Reg.rax, .rbx, .rcx, .rdx, .rsi, .rdi, .rsp, .r8, .r9].find? (·.name = name)

def source? (text : String) : Option Source :=
  match register? text with
  | some r => some (.reg r)
  | none => (decimal? text.toList).map .constant

def operation? (name : String) (operands : List Char) : Option Operation :=
  let first := String.ofList (operands.takeWhile (· ≠ ','))
  let second := String.ofList ((operands.dropWhile (· ≠ ',')).drop 2)
  match name with
  | "push" => some (.push (String.ofList operands))
  | "pop" => (register? first).map .pop
  | "mov" => return .mov (← register? first) (← source? second)
  | "add" => return .add (← register? first) (← register? second)
  | "sub" => return .sub (← register? first) (← register? second)
  | "mul" => (register? first).map .mul
  | "cmp" => return .cmp (← register? first) (← register? second)
  | "cmove" => return .cmove (← register? first) (← register? second)
  | "call" => some (.call first)
  | "syscall" => some .syscall
  | _ => none

/-- Reads a line: a comment says nothing, any other line is the name of an operation and its
operands after a space. -/
def readLine? (line : String) : Option (Option Operation) :=
  let body := line.toList.dropWhile (· = ' ')
  if body.head? = some ';' then some none
  else
    (operation? (String.ofList (body.takeWhile (· ≠ ' '))) ((body.dropWhile (· ≠ ' ')).drop 1)).map
      some

def assemble : List String → Option (List Operation)
  | [] => some []
  | l :: ls => do
    let o ← readLine? l
    let os ← assemble ls
    return o.toList ++ os

structure Outcome where
  state : State
  status : Option UInt64 := none

/-- What is outside of generated code: the word of thirty-two bits that the assembler makes of a
constant, and the printing routine. -/
structure Surroundings where
  constant : String → Option UInt32
  dump : State → State

def Surroundings.operand? (u : Surroundings) (s : State) (text : String) : Option UInt64 :=
  match register? text with
  | some r => some (s.regs r)
  | none => (u.constant text).map fun w => .ofBitVec (w.toBitVec.signExtend 64)

/-- Executes one operation. There is no outcome where the processor's answer is not defined, or not
known: a condition on an undefined flag, another routine, another system call. -/
def Surroundings.step (u : Surroundings) (s : State) : Operation → Option Outcome
  | .push operand => (u.operand? s operand).map fun w => ⟨s.push w, none⟩
  | .pop r => some ⟨s.pop r, none⟩
  | .mov d (.reg r) => some ⟨s.set d (s.regs r), none⟩
  | .mov d (.constant n) => some ⟨s.set d (.ofNat n), none⟩
  | .add d r => some ⟨s.setFlagged d (s.regs d + s.regs r), none⟩
  | .sub d r => some ⟨s.setFlagged d (s.regs d - s.regs r), none⟩
  | .mul r => some ⟨s.multiply r, none⟩
  | .cmp a b => some ⟨s.compare a b, none⟩
  | .cmove d r => s.zero.map fun z => ⟨s.setIf z d (s.regs r), none⟩
  | .call label => if label = "dump" then some ⟨u.dump s, none⟩ else none
  | .syscall => if s.regs .rax = 60 then some ⟨s, some (s.regs .rdi)⟩ else none

def Surroundings.execute (u : Surroundings) (s : State) : List Operation → Option Outcome
  | [] => some ⟨s, none⟩
  | o :: os =>
    match u.step s o with
    | some ⟨s', none⟩ => u.execute s' os
    | r => r

end Reckon.Processor
