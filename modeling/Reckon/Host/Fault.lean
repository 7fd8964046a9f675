import Reckon.Text.Quoted

namespace Reckon

inductive Reason where
  | noEntry
  | notDirectory
  | isDirectory
  | notEmpty
  | invalid
  | busy
  | denied
  | badFormat
  deriving DecidableEq, Repr, Inhabited

def Reason.text : Reason → String
  | .noEntry => "no such file or directory"
  | .notDirectory => "not a directory"
  | .isDirectory => "is a directory"
  | .notEmpty => "directory not empty"
  | .invalid => "invalid argument"
  | .busy => "device or resource busy"
  | .denied => "permission denied"
  | .badFormat => "exec format error"

inductive Action where
  | open
  | read
  | mkdir
  | remove
  | exec
  deriving DecidableEq, Repr, Inhabited

def Action.text : Action → String
  | .open => "open"
  | .read => "read"
  | .mkdir => "mkdir"
  | .remove => "remove"
  | .exec => "fork/exec"

inductive Exit where
  | status (code : UInt8)
  | signal (number : Nat)
  deriving DecidableEq, Repr, Inhabited

def signalText : Nat → String
  | 1 => "hangup"
  | 2 => "interrupt"
  | 3 => "quit"
  | 4 => "illegal instruction"
  | 5 => "trace/breakpoint trap"
  | 6 => "aborted"
  | 7 => "bus error"
  | 8 => "floating point exception"
  | 9 => "killed"
  | 10 => "user defined signal 1"
  | 11 => "segmentation fault"
  | 12 => "user defined signal 2"
  | 13 => "broken pipe"
  | 14 => "alarm clock"
  | 15 => "terminated"
  | n => s!"signal {n}"

def Exit.text : Exit → String
  | .status code => s!"exit status {code.toNat}"
  | .signal number => "signal: " ++ signalText number

/-- What the system could not do. -/
inductive Fault where
  | file (action : Action) (path : String) (reason : Reason)
  | noCommand
  | notInstalled (name : String)
  | notProgram (name : String) (reason : Reason)
  | ended (exit : Exit)
  | noWorkingDirectory
  deriving DecidableEq, Repr, Inhabited

def Fault.text : Fault → String
  | .file action path reason => action.text ++ " " ++ path ++ ": " ++ reason.text
  | .noCommand => "exec: no command"
  | .notInstalled name => "exec: " ++ quote name ++ ": executable file not found in $PATH"
  | .notProgram name reason => "exec: " ++ quote name ++ ": " ++ reason.text
  | .ended exit => exit.text
  | .noWorkingDirectory => "getwd: " ++ Reason.noEntry.text

end Reckon
