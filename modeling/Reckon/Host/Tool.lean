import Reckon.Host.Files

namespace Reckon

inductive Stream where
  | stdout
  | stderr
  deriving DecidableEq, Repr, Inhabited

structure Invocation where
  name : String
  args : List String
  directory : Place
  deriving DecidableEq, Repr, Inhabited

/-- What a program leaves behind, its output in the order of its writes. -/
structure Finished where
  exit : Exit
  written : List (Stream × Bytes)
  files : Node
  deriving Inhabited

/-- A program from outside, known only by what it does with how it was started and with the files it
finds. -/
abbrev Tool := Invocation → Node → Finished

namespace Tool

def status (code : UInt8) : Tool := fun _ files => ⟨.status code, [], files⟩

def echo : Tool := fun call files =>
  ⟨.status 0, [(.stdout, utf8 (" ".intercalate call.args ++ "\n"))], files⟩

end Tool

end Reckon
