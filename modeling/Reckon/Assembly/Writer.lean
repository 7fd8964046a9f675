import Reckon.Assembly
import Reckon.Diagnostic
import Reckon.Sink

namespace Reckon.Assembly

def Error.diagnostic : Error → Diagnostic
  | .sinkFull => .sinkFull
  | .noCombine op => .note ("asm: no code for combine " ++ op.name)
  | .unknownRoutine name => .note ("asm: unknown runtime routine " ++ quote name)
  | .unknownInstr kind => .note ("asm: unknown instruction " ++ kind.name)

/-- Assembly on its way to a sink. The first refusal is kept: from then on every call reports it and
writes nothing. -/
structure Writer where
  buffer : Buffer := {}
  deriving DecidableEq, Repr, Inhabited

namespace Writer

def ofSink (sink : Sink) : Writer := ⟨{ sink }⟩

def sink (w : Writer) : Sink := w.buffer.sink

def error? (w : Writer) : Option Error := if w.buffer.failed then some .sinkFull else none

/-- Writes lines, each in one write. -/
def put (w : Writer) (ls : List Line) : Writer :=
  ⟨ls.foldl (fun b l => b.write l.bytes) w.buffer⟩

def report (w : Writer) : Writer × Option Error := (w, w.error?)

def prologue (w : Writer) : Writer × Option Error := (w.put Assembly.prologue).report

def instr (w : Writer) (i : Instr) : Writer × Option Error :=
  if w.buffer.failed then w.report
  else
    match lines i with
    | .ok ls => (w.put ls).report
    | .error e => (w, some e)

def epilogue (w : Writer) : Writer × Option Error := w.instr .exit

def flush (w : Writer) : Writer × Option Error := Writer.report ⟨w.buffer.flush⟩

/-- Writes the code of instructions up to the first that fails. -/
def instrs (w : Writer) : List Instr → Writer × Option Error
  | [] => (w, none)
  | i :: is =>
    match w.instr i with
    | (w', none) => w'.instrs is
    | (w', some e) => (w', some e)

end Writer

end Reckon.Assembly
