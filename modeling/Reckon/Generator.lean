import Reckon.Assembly.Writer
import Reckon.Lowering

namespace Reckon

inductive GenerateError where
  | lower (error : LowerError)
  | write (error : Assembly.Error)
  deriving DecidableEq, Repr

def GenerateError.diagnostic : GenerateError → Diagnostic
  | .lower e => e.diagnostic
  | .write e => e.diagnostic

/-- A generator appends the code of one expression at a time. -/
structure Generator where
  writer : Assembly.Writer
  deriving DecidableEq, Repr, Inhabited

namespace Generator

def ofSink (sink : Sink) : Generator × Option GenerateError :=
  let (w, e) := (Assembly.Writer.ofSink sink).prologue
  (⟨w⟩, e.map .write)

/-- An expression that has no code leaves no trace in the output. -/
def generate (g : Generator) (e : Expr) : Generator × Option GenerateError :=
  match e.lower with
  | .error error => (g, some (.lower error))
  | .ok code =>
    let (w, error) := g.writer.instrs code
    (⟨w⟩, error.map .write)

/-- Appends the code of expressions up to the first that fails, and counts those that did not. -/
def generateAll (g : Generator) : List Expr → Generator × Nat × Option GenerateError
  | [] => (g, 0, none)
  | e :: es =>
    match g.generate e with
    | (g', some error) => (g', 0, some error)
    | (g', none) =>
      let (h, n, error) := g'.generateAll es
      (h, n + 1, error)

def finish (g : Generator) : Generator × Option GenerateError :=
  match g.writer.epilogue with
  | (w, some error) => (⟨w⟩, some (.write error))
  | (w, none) =>
    let (w', error) := w.flush
    (⟨w'⟩, error.map .write)

end Generator

def Program.generate (p : Program) (sink : Sink) : Sink × Option GenerateError :=
  match Generator.ofSink sink with
  | (g, some error) => (g.writer.sink, some error)
  | (g, none) =>
    match g.generateAll p.exprs with
    | (g', _, some error) => (g'.writer.sink, some error)
    | (g', _, none) =>
      let (h, error) := g'.finish
      (h.writer.sink, error)

inductive CompileError where
  | parse (error : ParseError)
  | generate (error : GenerateError)
  deriving DecidableEq, Repr

def CompileError.diagnostic : CompileError → Diagnostic
  | .parse e => e.diagnostic
  | .generate e => e.diagnostic

/-- Writes the assembly of a source to a sink; nothing is written for a source that does not
parse. -/
def compile (source : List Char) (sink : Sink) : Sink × Option CompileError :=
  match Program.parse source with
  | .error e => (sink, some (.parse e))
  | .ok p =>
    let (s, error) := p.generate sink
    (s, error.map .generate)

end Reckon
