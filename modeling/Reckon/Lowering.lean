import Reckon.Machine
import Reckon.Program

namespace Reckon

inductive LowerError where
  | unsupported (node : String)
  | operandCount (op : Operator) (arity got : Nat)
  | missing
  | unknownOperator (code : Int)
  deriving DecidableEq, Repr

def LowerError.diagnostic : LowerError → Diagnostic
  | .unsupported node => .unsupported node
  | .operandCount op arity got => .note s!"{op.text} takes {arity} operands, got {got}"
  | .missing => .note "unknown expression node <nil>"
  | .unknownOperator code => .note s!"unknown operator {code}"

def Combine.ofOperator? : OpKind → Option Combine
  | .plus => some .add
  | .subtract => some .sub
  | .multiply => some .mul
  | .equal => some .eq
  | _ => none

def routine? (name : String) : Option String :=
  if name = "print" then some dumpRoutine else none

/-- A computation that appends to code. After an error, what it appended before is still there. -/
abbrev Emit := ExceptT LowerError (StateM (List Instr)) Unit

namespace Emit

def instr (i : Instr) : Emit := modify (· ++ [i])

/-- The code that is appended to none; after an error there is none. -/
def code (x : Emit) : Except LowerError (List Instr) :=
  match x.run.run [] with
  | (.ok (), out) => .ok out
  | (.error e, _) => .error e

end Emit

namespace Expr

/-- Appends the code of an expression; `operand` says whether its value is needed. The code of a
value leaves one word on the stack, operands being computed from left to right. The code of `print`
leaves nothing, so it stands only where no value is needed. -/
def emit (operand : Bool) : Expr → Emit
  | .missing => throw .missing
  | .literal (.integer v) => .instr (.push (.int v))
  | .literal (.float v) => .instr (.push (.float v))
  | .literal l => throw (.unsupported (l.kind.name ++ " literal " ++ l.text))
  | .apply op args =>
    match op.kind with
    | .other code => throw (.unknownOperator code)
    | kind =>
      if args.length ≠ kind.arity then throw (.operandCount op kind.arity args.length)
      else
        match Combine.ofOperator? kind, args with
        | some c, [left, right] => do
          left.emit true
          right.emit true
          Emit.instr (.combine c)
        | _, [arg] =>
          match kind, routine? op.name with
          | .call, some routine =>
            if operand then throw (.unsupported (op.name ++ " used as a value"))
            else do
              arg.emit true
              Emit.instr (.call routine)
          | _, _ => throw (.unsupported op.text)
        | _, _ => throw (.unsupported op.text)

def lowerAs (operand : Bool) (e : Expr) : Except LowerError (List Instr) := (e.emit operand).code

def lower (e : Expr) : Except LowerError (List Instr) := e.lowerAs false

end Expr

namespace Program

/-- The code of all statements, each appended to that of those before it. -/
def body (es : List Expr) : Except LowerError (List Instr) :=
  Emit.code (es.forM (Expr.emit false))

def lower (p : Program) : Except LowerError (List Instr) := do
  let code ← body p.exprs
  return code ++ [.exit]

end Program

inductive EmulateError where
  | lower (error : LowerError)
  | run (error : RunError)
  deriving DecidableEq, Repr

def EmulateError.diagnostic : EmulateError → Diagnostic
  | .lower e => e.diagnostic
  | .run e => e.diagnostic

def Program.emulate (p : Program) (sink : Sink) : Sink × Option EmulateError :=
  match p.lower with
  | .error e => (sink, some (.lower e))
  | .ok code =>
    let (m, e) := { output := sink : Machine }.run code
    (m.output, e.map .run)

end Reckon
