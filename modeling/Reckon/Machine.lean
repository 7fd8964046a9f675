import Reckon.Diagnostic
import Reckon.Instr
import Reckon.Sink

namespace Reckon

/-- A machine. The top of the stack is its head. -/
structure Machine where
  stack : List UInt64 := []
  pc : Nat := 0
  halted : Bool := false
  maxDepth : Nat := 0
  output : Sink := {}
  deriving DecidableEq, Repr, Inhabited

inductive MachineError where
  | stackUnderflow
  | unknownCombine (op : Combine)
  | unknownRoutine (name : String)
  | unknownKind (kind : InstrKind)
  | sinkFull
  deriving DecidableEq, Repr

structure RunError where
  pc : Nat
  instr : Instr
  error : MachineError
  deriving DecidableEq, Repr

def dumpLine (w : UInt64) : String := toString w.toNat ++ "\n"

namespace Machine

def push (m : Machine) (w : UInt64) : Machine :=
  let stack := w :: m.stack
  { m with stack, maxDepth := max m.maxDepth stack.length }

/-- Executes one instruction; a halted machine does nothing. One that fails leaves the machine as
far as it came. -/
def step (m : Machine) (i : Instr) : Machine × Option MachineError :=
  if m.halted then (m, none)
  else
    match i with
    | .push v => (m.push v.word, none)
    | .combine op =>
      match m.stack with
      | [] => (m, some .stackUnderflow)
      | [_] => ({ m with stack := [] }, some .stackUnderflow)
      | right :: left :: rest =>
        match op.eval? left right with
        | some w => ({ m with stack := rest }.push w, none)
        | none => ({ m with stack := rest }, some (.unknownCombine op))
    | .call routine =>
      if routine = dumpRoutine then
        match m.stack with
        | [] => (m, some .stackUnderflow)
        | w :: rest =>
          match m.output.write (utf8 (dumpLine w)) with
          | some output => ({ m with stack := rest, output }, none)
          | none => ({ m with stack := rest }, some .sinkFull)
      else (m, some (.unknownRoutine routine))
    | .exit => ({ m with halted := true }, none)
    | .other code => (m, some (.unknownKind (.other code)))

/-- Executes instructions one after another until the machine halts or one of them fails. -/
def runFrom (m : Machine) : List Instr → Machine × Option RunError
  | [] => (m, none)
  | i :: is =>
    if m.halted then (m, none)
    else
      match m.step i with
      | (m', none) => { m' with pc := m'.pc + 1 }.runFrom is
      | (m', some error) => (m', some ⟨m'.pc, i, error⟩)

def run (m : Machine) (code : List Instr) : Machine × Option RunError :=
  { m with pc := 0 }.runFrom code

end Machine

def MachineError.diagnostic : MachineError → Diagnostic
  | .stackUnderflow => .stackUnderflow
  | .unknownCombine op => .note ("unknown combine " ++ op.name)
  | .unknownRoutine name => .note ("unknown runtime routine " ++ quote name)
  | .unknownKind kind => .note ("unknown instruction kind " ++ kind.name)
  | .sinkFull => .sinkFull

def RunError.diagnostic (e : RunError) : Diagnostic :=
  .within s!"instruction {e.pc} ({e.instr.text}): " e.error.diagnostic

end Reckon
