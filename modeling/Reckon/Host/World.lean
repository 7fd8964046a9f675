import Reckon.Host
import Reckon.Host.Script.Run

namespace Reckon

/-- The programs of a system: those installed under a name, and those that files hold. -/
structure Tools where
  installed : String → Option Tool
  load : Bytes → Except Reason Tool

namespace Tools

def shells : List String := ["/bin/sh", "/usr/bin/sh", "/bin/dash", "/usr/bin/dash"]

/-- The tool in an executable file, which has to be a script. -/
def loadScript (data : Bytes) : Except Reason Tool :=
  match (Text.decode data).chars with
  | '#' :: '!' :: rest =>
    let words := (rest.takeWhile (· ≠ '\n')).dropWhile (· = ' ')
    let interpreter := String.ofList (words.takeWhile (· ≠ ' '))
    if interpreter = "" then .error .badFormat
    else if shells.contains interpreter then .ok (Script.tool ('#' :: '!' :: rest))
    else .error .noEntry
  | _ => .error .badFormat

def standard : Tools where
  installed
    | "echo" => some .echo
    | "true" => some (.status 0)
    | "false" => some (.status 1)
    | _ => none
  load := loadScript

end Tools

/-- A system in memory, with the programs that were started and all that was printed. -/
structure World where
  files : Node
  directory : Place
  tools : Tools
  stdout : Bytes := []
  stderr : Bytes := []
  launched : List (String × List String) := []

namespace World

def print (w : World) (stream : Stream) (data : Bytes) : World :=
  match stream with
  | .stdout => { w with stdout := w.stdout ++ data }
  | .stderr => { w with stderr := w.stderr ++ data }

/-- The program of a name. A name without a slash is that of an installed program, any other one is
the path of a file. -/
def program (w : World) (name : String) : Except Fault Tool :=
  let refuse reason := .error (.file .exec name reason)
  if name = "" then .error .noCommand
  else if name = "/" then .error (.notProgram name .isDirectory)
  else if ¬name.toList.contains '/' then
    match w.tools.installed name with
    | some tool => .ok tool
    | none => .error (.notInstalled name)
  else
    match w.files.locate w.directory name with
    | .error reason => refuse reason
    | .ok place =>
      match w.files.get? place with
      | none => refuse .noEntry
      | some (.directory _) | some (.file _ false) => refuse .denied
      | some (.file data true) =>
        match w.tools.load data with
        | .ok tool => .ok tool
        | .error reason => refuse reason

def launch (w : World) (name : String) (args : List String) (output : Stream) :
    Except Fault Unit × World :=
  match w.program name with
  | .error fault => (.error fault, w)
  | .ok tool =>
    let f := tool ⟨name, args, w.directory⟩ w.files
    let w := { w with files := f.files, launched := w.launched ++ [(name, args)] }
    let w := f.written.foldl (fun w (s, data) => w.print (if s = .stdout then output else s) data) w
    (if f.exit = .status 0 then .ok () else .error (.ended f.exit), w)

def store (w : World) : Except Fault Node → Except Fault Unit × World
  | .ok files => (.ok (), { w with files })
  | .error fault => (.error fault, w)

instance : Host (StateM World) where
  read path w := (w.files.read w.directory path, w)
  write path data w := w.store (w.files.write w.directory path data)
  workingDirectory w :=
    match w.files.get? w.directory with
    | some _ => (.ok (Path.render true w.directory), w)
    | none => (.error .noWorkingDirectory, w)
  makeDirectories path w := w.store (w.files.makeDirectories path)
  remove path w := w.store (w.files.remove w.directory path)
  launch name args output w := w.launch name args output
  print stream data w := ((), w.print stream data)

end World

end Reckon
