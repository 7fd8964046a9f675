import Reckon.Command

namespace Reckon.Main

def reason : IO.Error → Reason
  | .noFileOrDirectory .. => .noEntry
  | .inappropriateType _ code _ => if code = 21 then .isDirectory else .notDirectory
  | .permissionDenied .. => .denied
  | .resourceBusy .. => .busy
  | .unsatisfiedConstraints .. => .notEmpty
  | _ => .invalid

def attempt {α : Type} (action : Action) (path : String) (x : IO α) : IO (Except Fault α) := do
  try
    return .ok (← x)
  catch e =>
    return .error (.file action path (reason e))

instance : Host IO where
  read path := do
    match ← attempt .open path (IO.FS.readBinFile path) with
    | .ok data => return .ok data.data.toList
    | .error (.file _ _ .isDirectory) => return .error (.file .read path .isDirectory)
    | .error fault => return .error fault
  write path data := attempt .open path (IO.FS.writeBinFile path ⟨data.toArray⟩)
  workingDirectory := do
    try
      return .ok (← IO.currentDir).toString
    catch _ =>
      return .error .noWorkingDirectory
  makeDirectories path := attempt .mkdir path (IO.FS.createDirAll path)
  remove path := attempt .remove path do
    try
      IO.FS.removeFile path
    catch _ =>
      IO.FS.removeDir path
  -- no program is started from here
  launch name _ _ := return .error (if name = "" then .noCommand else .notInstalled name)
  print stream data := do
    let out ← match stream with
      | .stdout => IO.getStdout
      | .stderr => IO.getStderr
    out.write ⟨data.toArray⟩
    out.flush

end Reckon.Main

/-- Errors go to the standard error and give the status 1. -/
def main (args : List String) : IO UInt32 := do
  match ← (Reckon.Command.run (m := IO) args).run with
  | .ok () => return 0
  | .error e =>
    IO.eprintln e.diagnostic.message
    return 1
