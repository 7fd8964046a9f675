import Reckon.Host.Tool

namespace Reckon

/-- What a build needs of the system around it. A build is written against this interface, so that
it runs on a machine and can be reasoned about in memory. -/
class Host (m : Type → Type) where
  read : String → m (Except Fault Bytes)
  write : String → Bytes → m (Except Fault Unit)
  workingDirectory : m (Except Fault String)
  /-- Makes a directory with all that lead to it, from an absolute path. -/
  makeDirectories : String → m (Except Fault Unit)
  remove : String → m (Except Fault Unit)
  /-- Starts a program and waits for its end. Its output goes to the given stream, its complaints to
  the standard error. -/
  launch : String → List String → Stream → m (Except Fault Unit)
  print : Stream → Bytes → m Unit

namespace Host

variable {m : Type → Type} [Monad m] [Host m]

def absolute (path : String) : ExceptT Fault m String := do
  if Path.isRooted path then return Path.clean path
  let dir ← ExceptT.mk (workingDirectory (m := m))
  return Path.join dir path

def ensureDirectory (path : String) : ExceptT Fault m String := do
  let path ← absolute path
  ExceptT.mk (makeDirectories path)
  return path

def discard (path : String) : ExceptT Fault m Unit := do
  match ← ExceptT.lift (remove (m := m) path) with
  | .ok () => return
  | .error (.file _ _ .noEntry) => return
  | .error fault => throw fault

end Host

end Reckon
