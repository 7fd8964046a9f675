import Reckon.Diagnostic
import Reckon.Host

namespace Reckon

inductive Stage where
  | prepare
  | write
  | assemble
  | link
  | run
  deriving DecidableEq, Repr, Inhabited

def Stage.name : Stage → String
  | .prepare => "prepare"
  | .write => "write"
  | .assemble => "assemble"
  | .link => "link"
  | .run => "run"

structure StageError where
  stage : Stage
  fault : Fault
  deriving DecidableEq, Repr

def StageError.diagnostic (e : StageError) : Diagnostic :=
  .stage e.stage.name (.note e.fault.text)

/-- Where a build puts its files, and the programs that make them. -/
structure Build where
  directory : String := "output"
  name : String := "output"
  assembler : String := "nasm"
  linker : String := "ld"
  deriving DecidableEq, Repr, Inhabited

namespace Build

def asmPath (b : Build) : String := Path.join b.directory (b.name ++ ".asm")

def objPath (b : Build) : String := Path.join b.directory (b.name ++ ".o")

def exePath (b : Build) : String := Path.join b.directory b.name

variable {m : Type → Type} [Monad m] [Host m]

def during {α : Type} (stage : Stage) (x : ExceptT Fault m α) : ExceptT StageError m α :=
  x.adapt fun fault => ⟨stage, fault⟩

def clear (b : Build) : ExceptT Fault m Unit := do
  Host.discard b.asmPath
  Host.discard b.objPath
  Host.discard b.exePath

/-- Makes the directory, takes its absolute path from then on, and clears it. -/
def prepare (b : Build) : m (Except StageError Unit × Build) := do
  match ← (during .prepare (Host.ensureDirectory (m := m) b.directory)).run with
  | .error e => return (.error e, b)
  | .ok directory =>
    let b := { b with directory }
    return (← (during .prepare (b.clear (m := m))).run, b)

def write (b : Build) (code : Bytes) : ExceptT StageError m Unit :=
  during .write (.mk <| Host.write b.asmPath code)

def assemble (b : Build) : ExceptT StageError m Unit :=
  during .assemble (.mk <| Host.launch b.assembler ["-felf64", b.asmPath, "-o", b.objPath] .stderr)

def link (b : Build) : ExceptT StageError m Unit :=
  during .link (.mk <| Host.launch b.linker ["-o", b.exePath, b.objPath] .stderr)

def run (b : Build) : ExceptT StageError m Unit :=
  during .run (.mk <| Host.launch b.exePath [] .stdout)

end Build

end Reckon
