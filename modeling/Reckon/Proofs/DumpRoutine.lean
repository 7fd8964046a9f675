import Reckon.Proofs.Basic
import Reckon.Proofs.Routine

namespace Reckon.Routine

open Assembly (Reg Op)
open Processor (Memory)

def entries (ls : List Assembly.Line) : List Entry := ls.flatMap fun
  | .label n => [.label n]
  | .op o | .routineOp o => [.op o]
  | .directive _ | .comment _ => []

def entering : List Op := [
  .mov (.reg .r9) (.imm (-3689348814741910323)), .sub (.reg .rsp) (.imm 40),
  .mov (.byteAt { base := .rsp, offset := 31 }) (.imm 10), .lea .rcx { base := .rsp, offset := 30 }]

def dividing : List Op := [
  .mov (.reg .rax) (.reg .rdi), .lea .r8 { base := .rsp, offset := 32 }, .mul .r9,
  .mov (.reg .rax) (.reg .rdi), .sub (.reg .r8) (.reg .rcx), .shr .rdx 3]

def laying : List Op := [
  .lea .rsi { base := .rdx, index := some (.rdx, 4) }, .add (.reg .rsi) (.reg .rsi),
  .sub (.reg .rax) (.reg .rsi), .add (.reg32 .rax) (.imm 48),
  .mov (.byteAt { base := .rcx }) (.reg8 .rax)]

def advancing : List Op := [
  .mov (.reg .rax) (.reg .rdi), .mov (.reg .rdi) (.reg .rdx), .mov (.reg .rdx) (.reg .rcx),
  .sub (.reg .rcx) (.imm 1), .cmp (.reg .rax) (.imm 9)]

def leaving : List Op := [
  .lea .rax { base := .rsp, offset := 32 }, .mov (.reg32 .rdi) (.imm 1),
  .sub (.reg .rdx) (.reg .rax), .xor (.reg32 .rax) (.reg32 .rax),
  .lea .rsi { base := .rsp, offset := 32, index := some (.rdx, 1) },
  .mov (.reg .rdx) (.reg .r8), .mov (.reg .rax) (.imm 1), .syscall, .add (.reg .rsp) (.imm 40)]

def looping : List Entry :=
  (dividing ++ laying ++ advancing).map .op ++ .op (.ja ".L2") :: (leaving.map .op ++ [.op .ret])

theorem behind_loop : behind (entries Assembly.dump) ".L2" = looping := by decide

/-- The lines of the routine are read as its operations. -/
theorem assemble_dump :
    assemble (Assembly.dump.map Assembly.Line.text) = some (entries Assembly.dump) := by
  decide +kernel

/-- The high half of the product with the reciprocal, shifted by three places, is a tenth. -/
theorem reciprocal_div (v : UInt64) :
    v.toNat * 0xCCCCCCCCCCCCCCCD / UInt64.size / 8 = v.toNat / 10 := by
  have hv := v.toNat_lt
  rw [show UInt64.size = 18446744073709551616 from rfl]
  omega

theorem remainder_byte {v q : UInt64} (h : q = .ofNat (v.toNat / 10)) :
    (truncate 8 (truncate 32 (truncate 32 (v - (q + q * 4 + (q + q * 4))) +
      truncate 32 (.ofInt 48)))).toUInt8 = .ofNat (48 + v.toNat % 10) := by
  have hv := v.toNat_lt
  have hq : q.toNat = v.toNat / 10 := by
    rw [h, UInt64.toNat_ofNat']
    omega
  have hten : (q + q * 4 + (q + q * 4)).toNat = 10 * (v.toNat / 10) := by
    have hfour : (4 : UInt64).toNat = 4 := rfl
    simp only [UInt64.toNat_add, UInt64.toNat_mul, hq, hfour]
    omega
  have hrest : (v - (q + q * 4 + (q + q * 4))).toNat = v.toNat % 10 := by
    rw [UInt64.toNat_sub_of_le _ _ (UInt64.le_iff_toNat_le.2 (by omega)), hten]
    omega
  have hbase : (UInt64.ofInt 48).toNat = 48 := rfl
  apply UInt8.toNat_inj.1
  simp only [truncate, hrest, hbase, UInt64.toNat_toUInt8, UInt64.toNat_ofNat', UInt64.toNat_add,
    UInt8.toNat_ofNat', Nat.pow_eq]
  omega

section Blocks

variable (k : Kernel) (s : State)

theorem follow_entering : ∃ t, s.follow k entering = some t ∧
    t.regs .r9 = 0xCCCCCCCCCCCCCCCD ∧ t.regs .rdi = s.regs .rdi ∧
    t.regs .rsp = s.regs .rsp - 40 ∧ t.regs .rcx = s.regs .rsp - 40 + 30 ∧
    (∀ x, t.memory x = if x = s.regs .rsp - 40 + 31 then 10 else s.memory x) ∧
    t.stored = s.stored ++ [s.regs .rsp - 40 + 31] ∧ t.writes = s.writes := by
  have hfactor : UInt64.ofInt (-3689348814741910323) = 0xCCCCCCCCCCCCCCCD := by decide
  have hforty : UInt64.ofInt 40 = 40 := by decide
  have hbreak : (truncate 8 (UInt64.ofInt 10)).toUInt8 = 10 := by decide
  refine ⟨_, rfl, ?_⟩
  simp [State.assign, State.flagResult, State.address, hfactor, hforty, hbreak]

theorem follow_dividing (h : s.regs .r9 = 0xCCCCCCCCCCCCCCCD) : ∃ t, s.follow k dividing = some t ∧
    t.regs .rax = s.regs .rdi ∧ t.regs .rdx = .ofNat ((s.regs .rdi).toNat / 10) ∧
    t.regs .r8 = s.regs .rsp + 32 - s.regs .rcx ∧ t.regs .rdi = s.regs .rdi ∧
    t.regs .rcx = s.regs .rcx ∧ t.regs .rsp = s.regs .rsp ∧ t.regs .r9 = s.regs .r9 ∧
    t.memory = s.memory ∧ t.stored = s.stored ∧ t.writes = s.writes := by
  have hfactor : (0xCCCCCCCCCCCCCCCD : UInt64).toNat = 0xCCCCCCCCCCCCCCCD := rfl
  have htenth := reciprocal_div (s.regs .rdi)
  have hlt := (s.regs .rdi).toNat_lt
  have hhigh : (s.regs .rdi).toNat * 0xCCCCCCCCCCCCCCCD / UInt64.size % 18446744073709551616 / 8 =
      (s.regs .rdi).toNat / 10 := by
    rw [Nat.mod_eq_of_lt, htenth]
    omega
  refine ⟨_, rfl, ?_⟩
  simp [State.shiftRight, State.multiply, State.assign, State.flagResult, State.address, h, hfactor,
    hhigh]

theorem follow_laying (h : s.regs .rdx = .ofNat ((s.regs .rax).toNat / 10)) :
    ∃ t, s.follow k laying = some t ∧
    t.regs .rdx = s.regs .rdx ∧ t.regs .r8 = s.regs .r8 ∧ t.regs .rdi = s.regs .rdi ∧
    t.regs .rcx = s.regs .rcx ∧ t.regs .rsp = s.regs .rsp ∧ t.regs .r9 = s.regs .r9 ∧
    (∀ x, t.memory x =
      if x = s.regs .rcx then .ofNat (48 + (s.regs .rax).toNat % 10) else s.memory x) ∧
    t.stored = s.stored ++ [s.regs .rcx] ∧ t.writes = s.writes := by
  have hbyte := remainder_byte h
  refine ⟨_, rfl, ?_⟩
  simp [State.assign, State.flagResult, State.address, hbyte]

theorem follow_advancing : ∃ t, s.follow k advancing = some t ∧
    t.regs .rdi = s.regs .rdx ∧ t.regs .rdx = s.regs .rcx ∧ t.regs .rcx = s.regs .rcx - 1 ∧
    t.regs .r8 = s.regs .r8 ∧ t.regs .rsp = s.regs .rsp ∧ t.regs .r9 = s.regs .r9 ∧
    t.memory = s.memory ∧ t.stored = s.stored ∧ t.writes = s.writes ∧
    t.carry = some (decide (s.regs .rdi < 9)) ∧ t.zero = some (decide (s.regs .rdi - 9 = 0)) := by
  have hnine : UInt64.ofInt 9 = 9 := by decide
  refine ⟨_, rfl, ?_⟩
  simp [State.assign, State.flagResult, hnine]

theorem follow_leaving : ∃ t, s.follow k leaving = some t ∧
    t.regs .rsp = s.regs .rsp + 40 ∧ t.memory = s.memory ∧ t.stored = s.stored ∧
    t.writes = s.writes ++
      [⟨1, s.regs .rdx, bytesAt s.memory (s.regs .r8).toNat (s.regs .rdx)⟩] := by
  have hone : truncate 32 (truncate 32 1) = 1 := by decide
  have hforty : UInt64.ofInt 40 = 40 := by decide
  have hplace : s.regs .rsp + 32 + (s.regs .rdx - (s.regs .rsp + 32)) = s.regs .rdx := by grind
  refine ⟨_, rfl, ?_⟩
  simp [State.assign, State.flagResult, State.address, State.request, hone, hforty, hplace]

end Blocks

def State.reserved (s : State) : UInt64 := s.regs .rsp - 40

/-- Some bytes stand at the upper end of what the routine has used since it was entered in the state
`start`, and nothing else has been touched. -/
structure Laid (start t : State) (text : Bytes) : Prop where
  pointer : t.regs .rsp = start.reserved
  holds : bytesAt t.memory text.length (start.reserved + .ofNat (32 - text.length)) = text
  length : text.length ≤ 21
  memory : ∀ x, 40 ≤ (x - start.reserved).toNat → t.memory x = start.memory x
  stored : t.stored =
    start.stored ++ (List.range text.length).map fun i => start.reserved + .ofNat (31 - i)
  writes : t.writes = start.writes

/-- A pass of the loop begins: the word in `rdi` still has to be laid down below some bytes. -/
structure Passing (start t : State) (text : Bytes) : Prop extends Laid start t text where
  factor : t.regs .r9 = 0xCCCCCCCCCCCCCCCD
  place : t.regs .rcx = start.reserved + .ofNat (31 - text.length)
  room : text.length ≤ 20
  fits : (t.regs .rdi).toNat < Nat.pow 10 (21 - text.length)

/-- The loop is over: `rdx` points to the bytes, and `r8` counts them. -/
structure Passed (start t : State) (text : Bytes) : Prop extends Laid start t text where
  buffer : t.regs .rdx = start.reserved + .ofNat (32 - text.length)
  count : t.regs .r8 = .ofNat text.length

variable {k : Kernel} {start s t : State} {text : Bytes}

theorem offset_reserved (base : UInt64) {n : Nat} (h : n < 256) :
    (base + .ofNat n - base).toNat = n := by
  rw [UInt64.add_comm, UInt64.add_sub_cancel, UInt64.toNat_ofNat']
  omega

theorem Laid.push {b : UInt8} (h : Laid start s text) (hroom : text.length ≤ 20)
    (hp : t.regs .rsp = s.regs .rsp)
    (hm : ∀ x, t.memory x =
      if x = start.reserved + .ofNat (31 - text.length) then b else s.memory x)
    (hs : t.stored = s.stored ++ [start.reserved + .ofNat (31 - text.length)])
    (hw : t.writes = s.writes) : Laid start t (b :: text) := by
  have habove : start.reserved + .ofNat (31 - text.length) + 1 =
      start.reserved + .ofNat (32 - text.length) := by
    rw [show 32 - text.length = 31 - text.length + 1 by omega, UInt64.ofNat_add, UInt64.add_assoc]
    rfl
  constructor
  case pointer => rw [hp, h.pointer]
  case holds =>
    have hbelow := bytesAt_below (m := s.memory) (by omega : text.length < 255)
      ((hm _).trans (if_pos rfl)) (fun x hx => (hm x).trans (if_neg hx))
    rw [habove, h.holds] at hbelow
    rw [List.length_cons, show 32 - (text.length + 1) = 31 - text.length by omega]
    exact hbelow
  case length => exact Nat.succ_le_succ hroom
  case memory =>
    intro x hx
    rw [hm, if_neg, h.memory x hx]
    rintro rfl
    rw [offset_reserved _ (by omega)] at hx
    omega
  case stored =>
    rw [hs, h.stored, List.length_cons, List.range_succ, List.map_append, List.append_assoc]
    rfl
  case writes => rw [hw, h.writes]

theorem Passing.pass (h : Passing start s text) : ∃ t,
    s.follow k (dividing ++ laying ++ advancing) = some t ∧
    Passed start t (.ofNat (48 + (s.regs .rdi).toNat % 10) :: text) ∧
    t.regs .rdi = .ofNat ((s.regs .rdi).toNat / 10) ∧ t.regs .r9 = s.regs .r9 ∧
    t.regs .rcx = s.regs .rcx - 1 ∧
    t.carry = some (decide (s.regs .rdi < 9)) ∧ t.zero = some (decide (s.regs .rdi - 9 = 0)) := by
  obtain ⟨a, hfa, haax, hadx, ha8, hadi, hacx, hasp, ha9, ham, has, haw⟩ :=
    follow_dividing k s h.factor
  obtain ⟨b, hfb, hbdx, hb8, hbdi, hbcx, hbsp, hb9, hbm, hbs, hbw⟩ :=
    follow_laying k a (by rw [hadx, haax])
  obtain ⟨t, hft, htdi, htdx, htcx, ht8, htsp, ht9, htm, hts, htw, hcarry, hzero⟩ :=
    follow_advancing k b
  have hplace : b.regs .rcx = start.reserved + .ofNat (31 - text.length) := by
    rw [hbcx, hacx, h.place]
  have hlaid : Laid start t (.ofNat (48 + (s.regs .rdi).toNat % 10) :: text) := by
    apply h.toLaid.push h.room
    · rw [htsp, hbsp, hasp]
    · intro x
      rw [htm, hbm, haax, ham, ← hbcx, hplace]
    · rw [hts, hbs, has, ← hbcx, hplace]
    · rw [htw, hbw, haw]
  refine ⟨t, ?_, ⟨hlaid, ?_, ?_⟩, ?_, ?_, ?_, ?_, ?_⟩
  · rw [List.append_assoc, State.follow_append hfa, State.follow_append hfb, hft]
  · rw [htdx, hplace, List.length_cons, show 32 - (text.length + 1) = 31 - text.length by omega]
  · have hroom := h.room
    have hsum : UInt64.ofNat (31 - text.length) + .ofNat (text.length + 1) = 32 := by
      rw [← UInt64.ofNat_add, show 31 - text.length + (text.length + 1) = 32 by omega]
      rfl
    rw [ht8, hb8, ha8, h.pointer, h.place, List.length_cons]
    grind
  · rw [htdi, hbdx, hadx]
  · rw [ht9, hb9, ha9]
  · rw [htcx, hbcx, hacx]
  · rw [hcarry, hbdi, hadi]
  · rw [hzero, hbdi, hadi]

def digitBytes (n : Nat) : Bytes := (Nat.toDigits 10 n).flatMap String.utf8EncodeChar

theorem digitBytes_of_lt {n : Nat} (h : n < 10) : digitBytes n = [.ofNat (48 + n)] := by
  have hall : ∀ d < 10, digitBytes d = [.ofNat (48 + d)] := by decide
  exact hall n h

theorem digitBytes_of_le {n : Nat} (h : 10 ≤ n) :
    digitBytes n = digitBytes (n / 10) ++ [.ofNat (48 + n % 10)] := by
  have hlast : digitBytes (n % 10) = [.ofNat (48 + n % 10)] := digitBytes_of_lt (by omega)
  rw [digitBytes, Nat.toDigits_of_lt_base (by omega)] at hlast
  rw [digitBytes, Nat.toDigits_of_base_le (by decide) h, List.flatMap_append, hlast]
  rfl

theorem below_ten (w : UInt64) :
    (decide (w < 9) || decide (w - 9 = 0)) = decide (w.toNat < 10) := by
  have hnine : w - 9 = 0 ↔ w.toNat = 9 := by
    rw [show (9 : Nat) = (9 : UInt64).toNat from rfl, UInt64.toNat_inj]
    grind
  have hless : w < 9 ↔ w.toNat < 9 := UInt64.lt_iff_toNat_lt
  rw [← Bool.decide_or]
  simp only [hnine, hless]
  congr 1
  apply propext
  omega

theorem Passing.next (h : Passing start s text) {b : UInt8} (ht : Passed start t (b :: text))
    (hmore : 10 ≤ (s.regs .rdi).toNat) (hvalue : t.regs .rdi = .ofNat ((s.regs .rdi).toNat / 10))
    (hfactor : t.regs .r9 = s.regs .r9) (hplace : t.regs .rcx = s.regs .rcx - 1) :
    Passing start t (b :: text) := by
  have hroom := h.room
  have hpow : Nat.pow 10 (21 - text.length) = Nat.pow 10 (20 - text.length) * 10 := by
    rw [show 21 - text.length = 20 - text.length + 1 by omega]
    rfl
  have hfits := h.fits
  rw [hpow] at hfits
  constructor
  case toLaid => exact ht.toLaid
  case factor => rw [hfactor, h.factor]
  case place =>
    rw [hplace, h.place, List.length_cons,
      show 31 - text.length = 31 - (text.length + 1) + 1 by omega, UInt64.ofNat_add,
      ← UInt64.add_assoc]
    exact UInt64.add_sub_cancel _ _
  case room =>
    apply Nat.lt_of_le_of_ne hroom
    intro hfull
    rw [hfull, Nat.sub_self] at hfits
    exact absurd hfits (Nat.not_lt.2 hmore)
  case fits =>
    rw [hvalue, UInt64.toNat_ofNat', List.length_cons,
      show 21 - (text.length + 1) = 20 - text.length by omega]
    omega

theorem Passing.loop (h : Passing start s text) : ∃ t,
    Reaches k (entries Assembly.dump) (looping, s) (leaving.map .op ++ [.op .ret], t) ∧
    Passed start t (digitBytes (s.regs .rdi).toNat ++ text) := by
  induction hv : (s.regs .rdi).toNat using Nat.strongRecOn generalizing s text with
  | ind v ih =>
  obtain ⟨t, hfollow, hpassed, hvalue, hfactor, hplace, hcarry, hzero⟩ := h.pass (k := k)
  have hpass : Reaches k (entries Assembly.dump) (looping, s)
      (.op (.ja ".L2") :: (leaving.map .op ++ [.op .ret]), t) := reaches_follow hfollow
  have hjump := State.step_ja (k := k) hcarry hzero ".L2"
  rw [below_ten, hv] at hjump
  rw [hv] at hpassed
  by_cases hmore : 10 ≤ v
  · rw [decide_eq_false (by omega)] at hjump
    have hless : (t.regs .rdi).toNat = v / 10 := by
      have hlt := (s.regs .rdi).toNat_lt
      rw [hvalue, hv, UInt64.toNat_ofNat']
      omega
    obtain ⟨u, hreach, hdone⟩ :=
      ih (v / 10) (by omega) (h.next hpassed (hv ▸ hmore) hvalue hfactor hplace) hless
    refine ⟨u, (hpass.trans (reaches_jump hjump)).trans ?_, ?_⟩
    · rw [behind_loop]
      exact hreach
    · rw [digitBytes_of_le hmore, List.append_assoc]
      exact hdone
  · rw [decide_eq_true (by omega)] at hjump
    refine ⟨t, hpass.trans (reaches_next hjump), ?_⟩
    rw [digitBytes_of_lt (by omega)]
    rw [Nat.mod_eq_of_lt (by omega)] at hpassed
    exact hpassed

theorem passing_entering (k : Kernel) (start : State) : ∃ t, start.follow k entering = some t ∧
    Passing start t [10] ∧ t.regs .rdi = start.regs .rdi := by
  obtain ⟨t, hfollow, hfactor, hvalue, hpointer, hplace, hmemory, hstored, hwrites⟩ :=
    follow_entering k start
  have hlaid : Laid start t [10] := by
    constructor
    case pointer => exact hpointer
    case holds =>
      have hbreak : t.memory (start.reserved + 31) = 10 := (hmemory _).trans (if_pos rfl)
      exact congrArg (fun b => [b]) hbreak
    case length => decide
    case memory =>
      intro x hx
      rw [hmemory, if_neg]
      rintro rfl
      have hoffset := offset_reserved start.reserved (by decide : 31 < 256)
      exact absurd (hoffset ▸ hx) (by decide)
    case stored => exact hstored
    case writes => exact hwrites
  have hfits : (t.regs .rdi).toNat < Nat.pow 10 20 :=
    Nat.lt_of_lt_of_le (UInt64.toNat_lt _) (by decide)
  exact ⟨t, hfollow, ⟨hlaid, hfactor, hplace, by decide, hfits⟩, hvalue⟩

theorem utf8_dumpLine (w : UInt64) : utf8 (dumpLine w) = digitBytes w.toNat ++ [10] := by
  have hbreak : ['\n'].flatMap String.utf8EncodeChar = [10] := by decide
  rw [dumpLine_eq, utf8, String.toList_ofList, List.flatMap_append, hbreak]
  rfl

theorem Passed.leave (h : Passed start s text) : ∃ t,
    s.follow k leaving = some t ∧ t.regs .rsp = start.regs .rsp ∧ t.memory = s.memory ∧
    t.stored = s.stored ∧ t.writes = start.writes ++ [⟨1, s.regs .rdx, text⟩] := by
  obtain ⟨t, hfollow, hpointer, hmemory, hstored, hwrites⟩ := follow_leaving k s
  refine ⟨t, hfollow, ?_, hmemory, hstored, ?_⟩
  · rw [hpointer, h.pointer]
    exact UInt64.sub_add_cancel _ _
  · have hlength := h.length
    have hcount : (s.regs .r8).toNat = text.length := by
      rw [h.count, UInt64.toNat_ofNat']
      omega
    have hholds := h.holds
    rw [← h.buffer] at hholds
    rw [hwrites, h.writes, hcount, hholds]

theorem Laid.load (h : Laid start s text) :
    s.memory.load (start.regs .rsp) = start.memory.load (start.regs .rsp) := by
  rw [Memory.load, Memory.load, Memory.number_congr]
  intro i hi
  apply h.memory
  have habove : start.regs .rsp + .ofNat i = start.reserved + .ofNat (40 + i) := by
    rw [UInt64.ofNat_add, ← UInt64.add_assoc]
    congr 1
    exact (UInt64.sub_add_cancel _ _).symm
  rw [habove, offset_reserved _ (by omega)]
  omega

/-- The lines of the routine print the word in `rdi`, whatever else is in the registers and in
memory, and whatever the system answers. The routine returns, has made one request to write, of the
word in decimal and a line break, and has put the stack pointer back. Of the forty bytes below the
return address it has used at most twenty-one, one of them for the line break, and it has changed no
other byte. Its division by ten is exact. -/
theorem dump_prints_word (k : Kernel) (s : State) :
    ∃ code fuel address t buffer stored,
      assemble (Assembly.dump.map Assembly.Line.text) = some code ∧
      run k code fuel code s = some (address, t) ∧
      address = s.memory.load (s.regs .rsp) ∧ t.regs .rsp = s.regs .rsp + 8 ∧
      t.writes = s.writes ++ [⟨1, buffer, utf8 (dumpLine (s.regs .rdi))⟩] ∧
      t.stored = s.stored ++ stored ∧
      stored.length = (utf8 (dumpLine (s.regs .rdi))).length ∧ stored.length ≤ 20 + 1 ∧
      (∀ a ∈ stored, (a - (s.regs .rsp - 40)).toNat < 40) ∧
      (∀ a, 40 ≤ (a - (s.regs .rsp - 40)).toNat → t.memory a = s.memory a) ∧
      ∀ v : UInt64, (v.toNat * 0xCCCCCCCCCCCCCCCD / UInt64.size) >>> 3 = v.toNat / 10 := by
  obtain ⟨a, henter, hpassing, hvalue⟩ := passing_entering k s
  obtain ⟨b, hloop, hpassed⟩ := hpassing.loop (k := k)
  rw [hvalue, ← utf8_dumpLine] at hpassed
  obtain ⟨c, hleave, hpointer, hmemory, hstored, hwrites⟩ := hpassed.leave (k := k)
  have hreach : Reaches k (entries Assembly.dump) (entries Assembly.dump, s) ([.op .ret], c) :=
    (reaches_label "dump").trans ((reaches_follow henter).trans
      ((reaches_label ".L2").trans (hloop.trans (reaches_follow hleave))))
  obtain ⟨n, hrun⟩ := hreach
  refine ⟨_, 1 + n, _, c.set .rsp (c.regs .rsp + 8), b.regs .rdx, _, assemble_dump, hrun 1, ?_, ?_,
    hwrites, hstored.trans hpassed.stored, ?_, ?_, ?_, ?_, ?_⟩
  · rw [hpointer, hmemory, hpassed.load]
  · rw [State.regs_set, if_pos rfl, hpointer]
  · rw [List.length_map, List.length_range]
  · rw [List.length_map, List.length_range]
    exact hpassed.length
  · intro x hx
    obtain ⟨i, -, rfl⟩ := List.mem_map.1 hx
    have hoffset : (s.reserved + .ofNat (31 - i) - (s.regs .rsp - 40)).toNat = 31 - i :=
      offset_reserved s.reserved (by omega)
    omega
  · intro x hx
    rw [State.memory_set, hmemory]
    exact hpassed.memory x hx
  · intro v
    rw [Nat.shiftRight_eq_div_pow]
    exact reciprocal_div v

end Reckon.Routine
