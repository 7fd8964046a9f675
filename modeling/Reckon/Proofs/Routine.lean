import Reckon.Proofs.Processor

namespace Reckon.Routine

open Assembly (Reg Address Operand Op)
open Processor (Memory register?)

inductive Entry where
  | label (name : String)
  | op (o : Op)
  deriving DecidableEq

/-- The registers under their names, of which each goes with a width. -/
def registerNames : List (String × Operand) :=
  [Reg.rax, .rbx, .rcx, .rdx, .rsi, .rdi, .rsp, .r8, .r9].flatMap fun r =>
    [(r.name, .reg r), (r.name32, .reg32 r), (r.name8, .reg8 r)]

def integer? (cs : List Char) : Option Int :=
  let (negative, digits) := splitSign cs
  (decimal? digits).map fun n => if negative then -n else n

/-- Adds a term to an address: a number, or a register with or without a scale. -/
def addTerm? (a : Address) (term : List Char) : Option Address :=
  match decimal? term with
  | some n => some { a with offset := a.offset + n }
  | none => do
    let r ← register? (String.ofList (term.takeWhile (· ≠ '*')))
    let factor := term.dropWhile (· ≠ '*')
    let scale ← if factor = [] then some 1 else decimal? (factor.drop 1)
    if a.index.isSome then none else some { a with index := some (r, scale) }

def address? (text : List Char) : Option Address :=
  match text.head?, text.getLast?, (text.drop 1).dropLast.splitOn '+' with
  | some '[', some ']', base :: terms => do
    let r ← register? (String.ofList base)
    terms.foldlM addTerm? { base := r }
  | _, _, _ => none

def operand? (text : List Char) : Option Operand :=
  match registerNames.lookup (String.ofList text) with
  | some o => some o
  | none =>
    if text.take 5 = "BYTE ".toList then (address? (text.drop 5)).map .byteAt
    else (integer? text).map .imm

def reg? (text : List Char) : Option Reg := register? (String.ofList text)

def op? (name : String) (operands : List (List Char)) : Option Op :=
  match name, operands with
  | "mov", [d, o] => return .mov (← operand? d) (← operand? o)
  | "add", [d, o] => return .add (← operand? d) (← operand? o)
  | "sub", [d, o] => return .sub (← operand? d) (← operand? o)
  | "xor", [d, o] => return .xor (← operand? d) (← operand? o)
  | "cmp", [d, o] => return .cmp (← operand? d) (← operand? o)
  | "lea", [d, a] => return .lea (← reg? d) (← address? a)
  | "shr", [r, n] => return .shr (← reg? r) (← decimal? n)
  | "mul", [r] => return .mul (← reg? r)
  | "ja", [l] => some (.ja (String.ofList l))
  | "syscall", [] => some .syscall
  | "ret", [] => some .ret
  | _, _ => none

def splitOperands (text : List Char) : List (List Char) :=
  if text = [] then [] else (text.splitOn ',').map (·.dropWhile (· = ' '))

def readLine? (line : String) : Option Entry :=
  let body := line.toList.dropWhile (· = ' ')
  let name := body.takeWhile (· ≠ ' ')
  if name.getLast? = some ':' then some (.label (String.ofList name.dropLast))
  else
    (op? (String.ofList name) (splitOperands ((body.dropWhile (· ≠ ' ')).dropWhile (· = ' ')))).map
      .op

def assemble (lines : List String) : Option (List Entry) := lines.mapM readLine?

structure Write where
  file : UInt64
  buffer : UInt64
  bytes : Bytes
  deriving DecidableEq

/-- Registers, memory and flags; a flag without a value is undefined. Beside them stand the
addresses of all bytes that were stored and all requests to write, in their order. -/
structure State where
  regs : Reg → UInt64
  memory : Memory
  carry : Option Bool
  zero : Option Bool
  stored : List UInt64
  writes : List Write

def truncate (bits : Nat) (w : UInt64) : UInt64 := .ofNat (w.toNat % Nat.pow 2 bits)

def bytesAt (m : Memory) : Nat → UInt64 → Bytes
  | 0, _ => []
  | n + 1, a => m a :: bytesAt m n (a + 1)

/-- The width at which an operation on two operands works. Not all operands go together. -/
def width? : Operand → Operand → Option Nat
  | .reg _, .reg _ | .reg _, .imm _ => some 64
  | .reg32 _, .reg32 _ | .reg32 _, .imm _ => some 32
  | .reg8 _, .reg8 _ | .reg8 _, .imm _ | .reg8 _, .byteAt _ => some 8
  | .byteAt _, .reg8 _ | .byteAt _, .imm _ => some 8
  | _, _ => none

namespace State

def set (s : State) (r : Reg) (w : UInt64) : State :=
  { s with regs := fun q => if q = r then w else s.regs q }

def flag (s : State) (carry zero : Option Bool) : State := { s with carry, zero }

def store (s : State) (a : UInt64) (b : UInt8) : State :=
  { s with memory := fun x => if x = a then b else s.memory x, stored := s.stored ++ [a] }

def address (s : State) (a : Address) : UInt64 :=
  let place := s.regs a.base + .ofNat a.offset
  match a.index with
  | none => place
  | some (r, scale) => place + s.regs r * .ofNat scale

def read (s : State) (bits : Nat) (o : Operand) : UInt64 :=
  truncate bits <| match o with
    | .reg r | .reg32 r | .reg8 r => s.regs r
    | .imm v => .ofInt v
    | .byteAt a => (s.memory (s.address a)).toUInt64

/-- Gives an operand a new value. The low half of a register clears the other half, its low byte
leaves the rest alone. -/
def assign (s : State) (o : Operand) (w : UInt64) : State :=
  match o with
  | .reg r => s.set r w
  | .reg32 r => s.set r (truncate 32 w)
  | .reg8 r => s.set r (.ofNat ((s.regs r).toNat / 256 * 256 + w.toNat % 256))
  | .byteAt a => s.store (s.address a) w.toUInt8
  | .imm _ => s

def flagResult (s : State) (bits : Nat) (w : UInt64) (carry : Bool) : State :=
  s.flag (some carry) (some (truncate bits w = 0))

def multiply (s : State) (r : Reg) : State :=
  let product := (s.regs .rax).toNat * (s.regs r).toNat
  let high : UInt64 := .ofNat (product / UInt64.size)
  ((s.set .rax (.ofNat product)).set .rdx high).flag (some (high ≠ 0)) none

def shiftRight (s : State) (r : Reg) (count : Nat) : State :=
  let w : UInt64 := .ofNat ((s.regs r).toNat / Nat.pow 2 (count % 64))
  if count % 64 = 0 then s
  else (s.set r w).flagResult 64 w ((s.regs r).toNat / Nat.pow 2 (count % 64 - 1) % 2 = 1)

/-- Asks for bytes in memory to be written. `reply` is what is in `rax` and in `rcx` afterwards. -/
def request (s : State) (reply : UInt64 × UInt64) : State :=
  let bytes := bytesAt s.memory (s.regs .rdx).toNat (s.regs .rsi)
  { (s.set .rax reply.1).set .rcx reply.2 with
    writes := s.writes ++ [⟨s.regs .rdi, s.regs .rsi, bytes⟩] }

end State

/-- What an operation leads to: the next line, a label, or the address behind a call. -/
inductive Outcome where
  | next (s : State)
  | jump (label : String) (s : State)
  | leave (address : UInt64) (s : State)

abbrev Kernel := State → UInt64 × UInt64

/-- Executes an operation. The only system call is that to write. -/
def State.step (k : Kernel) (s : State) : Op → Option Outcome
  | .mov d o => (width? d o).map fun n => .next (s.assign d (s.read n o))
  | .add d o => (width? d o).map fun n =>
    let a := s.read n d
    let b := s.read n o
    .next ((s.assign d (a + b)).flagResult n (a + b) (Nat.pow 2 n ≤ a.toNat + b.toNat))
  | .sub d o => (width? d o).map fun n =>
    let a := s.read n d
    let b := s.read n o
    .next ((s.assign d (a - b)).flagResult n (a - b) (a < b))
  | .xor d o => (width? d o).map fun n =>
    let w := s.read n d ^^^ s.read n o
    .next ((s.assign d w).flagResult n w false)
  | .cmp d o => (width? d o).map fun n =>
    let a := s.read n d
    let b := s.read n o
    .next (s.flagResult n (a - b) (a < b))
  | .mul r => some (.next (s.multiply r))
  | .shr r n => some (.next (s.shiftRight r n))
  | .lea d a => some (.next (s.set d (s.address a)))
  | .ja l => do
    let c ← s.carry
    let z ← s.zero
    return if c || z then .next s else .jump l s
  | .syscall => if s.regs .rax = 1 then some (.next (s.request (k s))) else none
  | .ret => some (.leave (s.memory.load (s.regs .rsp)) (s.set .rsp (s.regs .rsp + 8)))
  | _ => none

def behind (code : List Entry) (l : String) : List Entry :=
  (code.dropWhile (· ≠ .label l)).drop 1

/-- Runs the lines that are left of some code for at most so many lines. The outcome is the address
that a return leads to, and the state there. -/
def run (k : Kernel) (code : List Entry) : Nat → List Entry → State → Option (UInt64 × State)
  | 0, _, _ => none
  | _ + 1, [], _ => none
  | n + 1, .label _ :: rest, s => run k code n rest s
  | n + 1, .op o :: rest, s =>
    match s.step k o with
    | some (.next t) => run k code n rest t
    | some (.jump l t) => run k code n (behind code l) t
    | some (.leave a t) => some (a, t)
    | none => none

@[simp] theorem truncate_word (w : UInt64) : truncate 64 w = w := by
  apply UInt64.toNat_inj.1
  simp [truncate]

namespace State

variable (s : State) (r q : Reg) (w a : UInt64) (b : UInt8) (c z : Option Bool)

@[simp] theorem regs_set : (s.set r w).regs q = if q = r then w else s.regs q := rfl
@[simp] theorem memory_set : (s.set r w).memory = s.memory := rfl
@[simp] theorem stored_set : (s.set r w).stored = s.stored := rfl
@[simp] theorem writes_set : (s.set r w).writes = s.writes := rfl
@[simp] theorem regs_flag : (s.flag c z).regs = s.regs := rfl
@[simp] theorem memory_flag : (s.flag c z).memory = s.memory := rfl
@[simp] theorem stored_flag : (s.flag c z).stored = s.stored := rfl
@[simp] theorem writes_flag : (s.flag c z).writes = s.writes := rfl
@[simp] theorem carry_flag : (s.flag c z).carry = c := rfl
@[simp] theorem zero_flag : (s.flag c z).zero = z := rfl
@[simp] theorem regs_store : (s.store a b).regs = s.regs := rfl
@[simp] theorem stored_store : (s.store a b).stored = s.stored ++ [a] := rfl
@[simp] theorem writes_store : (s.store a b).writes = s.writes := rfl
@[simp] theorem memory_store (x : UInt64) :
    (s.store a b).memory x = if x = a then b else s.memory x := rfl
@[simp] theorem read_reg (n : Nat) : s.read n (.reg r) = truncate n (s.regs r) := rfl
@[simp] theorem read_reg32 (n : Nat) : s.read n (.reg32 r) = truncate n (s.regs r) := rfl
@[simp] theorem read_reg8 (n : Nat) : s.read n (.reg8 r) = truncate n (s.regs r) := rfl
@[simp] theorem read_imm (n : Nat) (v : Int) : s.read n (.imm v) = truncate n (.ofInt v) := rfl

theorem step_ja {k : Kernel} {s : State} {carry zero : Bool} (hc : s.carry = some carry)
    (hz : s.zero = some zero) (l : String) :
    s.step k (.ja l) = some (if carry || zero then .next s else .jump l s) := by
  simp only [step, hc, hz]
  rfl

def follow (k : Kernel) (s : State) : List Op → Option State
  | [] => some s
  | o :: os =>
    match s.step k o with
    | some (.next t) => t.follow k os
    | _ => none

theorem follow_append {k : Kernel} {s t : State} {os : List Op} (h : s.follow k os = some t)
    (ps : List Op) : s.follow k (os ++ ps) = t.follow k ps := by
  induction os generalizing s with
  | nil =>
    cases h
    rfl
  | cons o os ih =>
    rw [List.cons_append, follow]
    rw [follow] at h
    split at h
    · exact ih h
    · cases h

end State

def Reaches (k : Kernel) (code : List Entry) (p q : List Entry × State) : Prop :=
  ∃ n, ∀ m, run k code (m + n) p.1 p.2 = run k code m q.1 q.2

section Reaches

variable {k : Kernel} {code rest : List Entry} {s t : State}

theorem Reaches.trans {p q r : List Entry × State} (h : Reaches k code p q)
    (h' : Reaches k code q r) : Reaches k code p r := by
  obtain ⟨n, hn⟩ := h
  obtain ⟨n', hn'⟩ := h'
  refine ⟨n' + n, ?_⟩
  intro m
  rw [← Nat.add_assoc, hn, hn']

theorem reaches_label (l : String) : Reaches k code (.label l :: rest, s) (rest, s) :=
  ⟨1, fun _ => rfl⟩

theorem reaches_next {o : Op} (h : s.step k o = some (.next t)) :
    Reaches k code (.op o :: rest, s) (rest, t) := by
  refine ⟨1, ?_⟩
  intro m
  simp only [run, h]

theorem reaches_jump {o : Op} {l : String} (h : s.step k o = some (.jump l t)) :
    Reaches k code (.op o :: rest, s) (behind code l, t) := by
  refine ⟨1, ?_⟩
  intro m
  simp only [run, h]

theorem reaches_follow {os : List Op} (h : s.follow k os = some t) :
    Reaches k code (os.map .op ++ rest, s) (rest, t) := by
  induction os generalizing s with
  | nil =>
    cases h
    exact ⟨0, fun _ => rfl⟩
  | cons o os ih =>
    rw [State.follow] at h
    split at h
    case h_1 u hu =>
      exact (reaches_next hu).trans (ih h)
    · cases h

end Reaches

section Bytes

variable {m m' : Memory} {a : UInt64}

theorem bytesAt_congr {n : Nat} (h : ∀ i < n, m' (a + .ofNat i) = m (a + .ofNat i)) :
    bytesAt m' n a = bytesAt m n a := by
  induction n generalizing a with
  | zero => rfl
  | succ n ih =>
    have hfirst := h 0 (Nat.succ_pos n)
    rw [show a + UInt64.ofNat 0 = a from UInt64.add_zero a] at hfirst
    rw [bytesAt, bytesAt, hfirst, ih]
    intro i hi
    have hnext := h (i + 1) (Nat.succ_lt_succ hi)
    rwa [UInt64.ofNat_add, UInt64.add_comm (UInt64.ofNat i), ← UInt64.add_assoc] at hnext

theorem bytesAt_below {n : Nat} {b : UInt8} (hn : n < 255) (hb : m' a = b)
    (h : ∀ x, x ≠ a → m' x = m x) : bytesAt m' (n + 1) a = b :: bytesAt m n (a + 1) := by
  rw [bytesAt, hb]
  congr 1
  apply bytesAt_congr
  intro i hi
  apply h
  intro hsame
  have hzero : UInt64.ofNat (i + 1) = 0 := by
    rw [UInt64.ofNat_add]
    grind
  have hnat := congrArg UInt64.toNat hzero
  rw [UInt64.toNat_ofNat'] at hnat
  have : (0 : UInt64).toNat = 0 := rfl
  omega

end Bytes

end Reckon.Routine
