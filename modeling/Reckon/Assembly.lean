import Reckon.Instr
import Reckon.Text.Quoted

namespace Reckon.Assembly

inductive Reg where
  | rax
  | rbx
  | rcx
  | rdx
  | rsi
  | rdi
  | rsp
  | r8
  | r9
  deriving DecidableEq, Repr, Inhabited

def Reg.name : Reg → String
  | .rax => "rax"
  | .rbx => "rbx"
  | .rcx => "rcx"
  | .rdx => "rdx"
  | .rsi => "rsi"
  | .rdi => "rdi"
  | .rsp => "rsp"
  | .r8 => "r8"
  | .r9 => "r9"

def Reg.name32 : Reg → String
  | .rax => "eax"
  | .rbx => "ebx"
  | .rcx => "ecx"
  | .rdx => "edx"
  | .rsi => "esi"
  | .rdi => "edi"
  | .rsp => "esp"
  | .r8 => "r8d"
  | .r9 => "r9d"

def Reg.name8 : Reg → String
  | .rax => "al"
  | .rbx => "bl"
  | .rcx => "cl"
  | .rdx => "dl"
  | .rsi => "sil"
  | .rdi => "dil"
  | .rsp => "spl"
  | .r8 => "r8b"
  | .r9 => "r9b"

structure Address where
  base : Reg
  offset : Nat := 0
  index : Option (Reg × Nat) := none
  deriving DecidableEq, Repr, Inhabited

def Address.text (a : Address) : String :=
  "[" ++ a.base.name ++ (if a.offset = 0 then "" else "+" ++ toString a.offset) ++
    (match a.index with
    | none => ""
    | some (r, scale) =>
      "+" ++ r.name ++ (if scale = 1 then "" else "*" ++ toString scale)) ++ "]"

inductive Operand where
  | reg (r : Reg)
  | reg32 (r : Reg)
  | reg8 (r : Reg)
  | imm (value : Int)
  | byteAt (a : Address)
  deriving DecidableEq, Repr, Inhabited

def Operand.text : Operand → String
  | .reg r => r.name
  | .reg32 r => r.name32
  | .reg8 r => r.name8
  | .imm v => toString v
  | .byteAt a => "BYTE " ++ a.text

inductive Op where
  | pushImm (value : Immediate)
  | push (r : Reg)
  | pop (r : Reg)
  | mov (dst src : Operand)
  | add (dst src : Operand)
  | sub (dst src : Operand)
  | xor (dst src : Operand)
  | cmp (a b : Operand)
  | cmove (dst src : Reg)
  | mul (r : Reg)
  | shr (r : Reg) (count : Nat)
  | lea (dst : Reg) (address : Address)
  | ja (label : String)
  | call (label : String)
  | syscall
  | ret
  deriving DecidableEq, Repr, Inhabited

/-- Puts a fraction of zero into the text of a number without a point, in front of its exponent. -/
def withPoint (digits : List Char) : List Char :=
  if digits.contains '.' then digits
  else
    let isMark (c : Char) : Bool := c = 'e' || c = 'E'
    digits.takeWhile (!isMark ·) ++ '.' :: '0' :: digits.dropWhile (!isMark ·)

/-- The text of a constant that is pushed: a single-precision number is given by its value and
stands for its bits. -/
def immediateText : Immediate → String
  | .int v => (Immediate.int v).text
  | .float v => "__float32__(" ++ String.ofList (withPoint v.text.toList) ++ ")"

def Op.parts : Op → String × List String
  | .pushImm v => ("push", [immediateText v])
  | .push r => ("push", [r.name])
  | .pop r => ("pop", [r.name])
  | .mov d s => ("mov", [d.text, s.text])
  | .add d s => ("add", [d.text, s.text])
  | .sub d s => ("sub", [d.text, s.text])
  | .xor d s => ("xor", [d.text, s.text])
  | .cmp a b => ("cmp", [a.text, b.text])
  | .cmove d s => ("cmove", [d.name, s.name])
  | .mul r => ("mul", [r.name])
  | .shr r n => ("shr", [r.name, toString n])
  | .lea d a => ("lea", [d.name, a.text])
  | .ja l => ("ja", [l])
  | .call l => ("call", [l])
  | .syscall => ("syscall", [])
  | .ret => ("ret", [])

def Op.text (width : Nat) (o : Op) : String :=
  match o.parts with
  | (name, []) => name
  | (name, operands) => padRight width name ++ String.intercalate ", " operands

/-- A line of assembly. Operations of a routine are set in columns, those of generated code are
not. -/
inductive Line where
  | directive (text : String)
  | label (name : String)
  | comment (text : String)
  | op (o : Op)
  | routineOp (o : Op)
  deriving DecidableEq, Repr, Inhabited

def Line.text : Line → String
  | .directive t => t
  | .label n => n ++ ":"
  | .comment t => "    ;; -- " ++ t ++ " --"
  | .op o => "    " ++ o.text (o.parts.1.length + 1)
  | .routineOp o => "    " ++ o.text 8

def Line.bytes (l : Line) : Bytes := utf8 (l.text ++ "\n")

/-- The routine that prints the word in `rdi` and a line break. The digits are laid down from the
last to the first below the line break, in forty bytes of stack. -/
def dump : List Line := [
  .label "dump",
  .routineOp (.mov (.reg .r9) (.imm (-3689348814741910323))),
  .routineOp (.sub (.reg .rsp) (.imm 40)),
  .routineOp (.mov (.byteAt { base := .rsp, offset := 31 }) (.imm 10)),
  .routineOp (.lea .rcx { base := .rsp, offset := 30 }),
  .label ".L2",
  .routineOp (.mov (.reg .rax) (.reg .rdi)),
  .routineOp (.lea .r8 { base := .rsp, offset := 32 }),
  .routineOp (.mul .r9),
  .routineOp (.mov (.reg .rax) (.reg .rdi)),
  .routineOp (.sub (.reg .r8) (.reg .rcx)),
  .routineOp (.shr .rdx 3),
  .routineOp (.lea .rsi { base := .rdx, index := some (.rdx, 4) }),
  .routineOp (.add (.reg .rsi) (.reg .rsi)),
  .routineOp (.sub (.reg .rax) (.reg .rsi)),
  .routineOp (.add (.reg32 .rax) (.imm 48)),
  .routineOp (.mov (.byteAt { base := .rcx }) (.reg8 .rax)),
  .routineOp (.mov (.reg .rax) (.reg .rdi)),
  .routineOp (.mov (.reg .rdi) (.reg .rdx)),
  .routineOp (.mov (.reg .rdx) (.reg .rcx)),
  .routineOp (.sub (.reg .rcx) (.imm 1)),
  .routineOp (.cmp (.reg .rax) (.imm 9)),
  .routineOp (.ja ".L2"),
  .routineOp (.lea .rax { base := .rsp, offset := 32 }),
  .routineOp (.mov (.reg32 .rdi) (.imm 1)),
  .routineOp (.sub (.reg .rdx) (.reg .rax)),
  .routineOp (.xor (.reg32 .rax) (.reg32 .rax)),
  .routineOp (.lea .rsi { base := .rsp, offset := 32, index := some (.rdx, 1) }),
  .routineOp (.mov (.reg .rdx) (.reg .r8)),
  .routineOp (.mov (.reg .rax) (.imm 1)),
  .routineOp .syscall,
  .routineOp (.add (.reg .rsp) (.imm 40)),
  .routineOp .ret]

def prologue : List Line :=
  [.directive "BITS 64", .directive "segment .text"] ++ dump ++
    [.directive "global _start", .label "_start"]

/-- The code of an operation on two words; the right one is on top of the stack. -/
def combineLines? : Combine → Option (List Line)
  | .add => some [.comment "plus", .op (.pop .rax), .op (.pop .rbx),
      .op (.add (.reg .rax) (.reg .rbx)), .op (.push .rax)]
  | .sub => some [.comment "minus", .op (.pop .rax), .op (.pop .rbx),
      .op (.sub (.reg .rbx) (.reg .rax)), .op (.push .rbx)]
  | .mul => some [.comment "multiply", .op (.pop .rax), .op (.pop .rbx), .op (.mul .rbx),
      .op (.push .rax)]
  | .eq => some [.comment "equal", .op (.mov (.reg .rcx) (.imm 0)), .op (.mov (.reg .rdx) (.imm 1)),
      .op (.pop .rax), .op (.pop .rbx), .op (.cmp (.reg .rax) (.reg .rbx)),
      .op (.cmove .rcx .rdx), .op (.push .rcx)]
  | .other _ => none

inductive Error where
  | sinkFull
  | noCombine (op : Combine)
  | unknownRoutine (name : String)
  | unknownInstr (kind : InstrKind)
  deriving DecidableEq, Repr

def lines : Instr → Except Error (List Line)
  | .push v => .ok [.comment "push ", .op (.pushImm v)]
  | .combine op =>
    match combineLines? op with
    | some ls => .ok ls
    | none => .error (.noCombine op)
  | .call routine =>
    if routine = dumpRoutine then
      .ok [.comment "dump", .op (.pop .rdi), .op (.call dumpRoutine)]
    else .error (.unknownRoutine routine)
  | .exit =>
    .ok [.op (.mov (.reg .rax) (.imm 60)), .op (.mov (.reg .rdi) (.imm 0)), .op .syscall]
  | .other code => .error (.unknownInstr (.other code))

end Reckon.Assembly
