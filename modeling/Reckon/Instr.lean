import Reckon.Number.Shortest

namespace Reckon

inductive Immediate where
  | int (value : Int32)
  | float (value : Single)
  deriving DecidableEq, Repr, Inhabited

namespace Immediate

def text : Immediate → String
  | .int v => toString v.toInt
  | .float v => v.text

/-- The word an operand is on the stack: its thirty-two bits with the sign extended. -/
def word : Immediate → UInt64
  | .int v => v.toInt64.toUInt64
  | .float v => v.bits.toInt32.toInt64.toUInt64

end Immediate

/-- The operations on two words; `other` is none of the machine's own. -/
inductive Combine where
  | add
  | sub
  | mul
  | eq
  | other (code : UInt8)
  deriving DecidableEq, Repr, Inhabited

namespace Combine

def name : Combine → String
  | .add => "Add"
  | .sub => "Sub"
  | .mul => "Mul"
  | .eq => "Eq"
  | .other code => s!"Combine({code.toNat})"

def eval? (left right : UInt64) : Combine → Option UInt64
  | .add => some (left + right)
  | .sub => some (left - right)
  | .mul => some (left * right)
  | .eq => some (if left = right then 1 else 0)
  | .other _ => none

end Combine

inductive InstrKind where
  | push
  | combine
  | call
  | exit
  | other (code : UInt8)
  deriving DecidableEq, Repr, Inhabited

def InstrKind.name : InstrKind → String
  | .push => "PushImmediate"
  | .combine => "BinaryCombine"
  | .call => "CallRuntime"
  | .exit => "Exit"
  | .other code => s!"Kind({code.toNat})"

def dumpRoutine : String := "dump"

inductive Instr where
  | push (value : Immediate)
  | combine (op : Combine)
  | call (routine : String)
  | exit
  | other (code : UInt8)
  deriving DecidableEq, Repr, Inhabited

namespace Instr

def kind : Instr → InstrKind
  | .push _ => .push
  | .combine _ => .combine
  | .call _ => .call
  | .exit => .exit
  | .other code => .other code

def text (i : Instr) : String :=
  match i with
  | .push v => i.kind.name ++ " " ++ v.text
  | .combine op => i.kind.name ++ " " ++ op.name
  | .call routine => i.kind.name ++ " " ++ routine
  | .exit | .other _ => i.kind.name

end Instr

end Reckon
