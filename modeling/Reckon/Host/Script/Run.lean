import Reckon.Host.Script

/-!
Running scripts. This only lets the system in memory run tools that are scripts: the results about
builds are about any tools, and none of them rests on it. A script works on the files it finds,
writes to the streams it was given, and ends by itself, by `exit`, or by a signal that it sends to
itself.
-/

namespace Reckon.Script

inductive Target where
  | stream (s : Stream)
  | file (place : Place)
  | pipe
  deriving DecidableEq, Repr, Inhabited

structure Channels where
  out : Target := .stream .stdout
  err : Target := .stream .stderr
  deriving DecidableEq, Repr, Inhabited

structure Shell where
  name : String
  args : List String
  directory : Place
  files : Node
  bindings : List (String × String) := []
  input : Bytes := []
  piped : Bytes := []
  written : List (Stream × Bytes) := []
  status : UInt8 := 0
  ended : Option Exit := none
  deriving Inhabited

/-- The number a script knows itself by. -/
def processId : String := "1000"

namespace Shell

def write (s : Shell) (target : Target) (data : Bytes) : Shell :=
  match target with
  | .stream stream => { s with written := s.written ++ [(stream, data)] }
  | .pipe => { s with piped := s.piped ++ data }
  | .file place =>
    match s.files.get? place with
    | some (.file old executable) =>
      { s with files := s.files.set (some (.file (old ++ data) executable)) place }
    | _ => s

def finish (s : Shell) (status : UInt8) : Shell := { s with status }

def complain (s : Shell) (ch : Channels) (text : String) (status : UInt8) : Shell :=
  (s.write ch.err (utf8 (text ++ "\n"))).finish status

def origin (s : Shell) (line : Nat) : String := s!"{s.name}: {line}: "

def value (s : Shell) (name : String) : String :=
  match name with
  | "@" | "*" => " ".intercalate s.args
  | "#" => toString s.args.length
  | "?" => toString s.status.toNat
  | "$" => processId
  | "0" => s.name
  | _ =>
    match name.toNat? with
    | some n => (s.args[n - 1]?).getD ""
    | none => (s.bindings.lookup name).getD ""

def separates (c : Char) : Bool := c == ' ' || c == '\t' || c == '\n'

def splitInto : List Char → List String × Option String → List String × Option String
  | [], state => state
  | c :: cs, (done, field) =>
    if separates c then splitInto cs (done ++ field.toList, none)
    else splitInto cs (done, some (field.getD "" ++ String.singleton c))

def expandPart (s : Shell) (state : List String × Option String) (part : Part) :
    List String × Option String :=
  let (done, field) := state
  match part with
  | .text t quoted =>
    if quoted ∨ t ≠ "" then (done, some (field.getD "" ++ t)) else (done, field)
  | .parameter name false => splitInto (s.value name).toList (done, field)
  | .parameter name true =>
    if name = "@" then
      match s.args with
      | [] => (done, field)
      | a :: more =>
        let all := (field.getD "" ++ a) :: more
        (done ++ all.dropLast, all.getLast?)
    else (done, some (field.getD "" ++ s.value name))

/-- The fields of a word. A quoted list of no arguments is no field. -/
def expand (s : Shell) (w : Word) : List String :=
  if w.all (fun p => p = .text "" true ∨ p = .parameter "@" true) ∧
      w.contains (.parameter "@" true) then s.args
  else
    let (done, field) := w.foldl s.expandPart ([], none)
    done ++ field.toList

def expandOne (s : Shell) (w : Word) : String := " ".intercalate (s.expand w)

def redirect (s : Shell) (ch : Channels) : List Redirect → Except Shell (Shell × Channels)
  | [] => .ok (s, ch)
  | r :: rest =>
    let target := s.expandOne r.target
    let attach (s : Shell) (t : Target) :=
      redirect s (if r.descriptor = 2 then { ch with err := t } else { ch with out := t }) rest
    let fail (verb words : String) :=
      .error (s.complain ch s!"{s.origin r.line}cannot {verb} {target}: {words}" 2)
    let place := s.files.locate s.directory target
    let node := place.toOption.bind s.files.get?
    match r.direction with
    | .copy => attach s (if target = "2" then ch.err else ch.out)
    | .read =>
      match node with
      | some (.file data _) => redirect { s with input := data } ch rest
      | _ => fail "open" "No such file"
    | _ =>
      match place, node with
      | .ok place, some (.file data executable) =>
        let data := if r.direction = .append then data else []
        attach { s with files := s.files.set (some (.file data executable)) place } (.file place)
      | .ok place, none =>
        attach { s with files := s.files.set (some (.file [] false)) place } (.file place)
      | _, some (.directory _) => fail "create" "Is a directory"
      | _, _ => fail "create" "Directory nonexistent"

/-- The characters that a backslash and what follows stand for; a `c` ends the text. -/
def unescape : List Char → List Char × Bool
  | '\\' :: c :: rest =>
    let put (d : Char) :=
      let (cs, ends) := unescape rest
      (d :: cs, ends)
    match c with
    | 'a' => put '\x07'
    | 'b' => put '\x08'
    | 'f' => put '\x0c'
    | 'n' => put '\n'
    | 'r' => put '\r'
    | 't' => put '\t'
    | 'v' => put '\x0b'
    | '\\' => put '\\'
    | 'c' => ([], true)
    | _ =>
      let (cs, ends) := unescape rest
      ('\\' :: c :: cs, ends)
  | c :: rest =>
    let (cs, ends) := unescape rest
    (c :: cs, ends)
  | [] => ([], false)

def echo (s : Shell) (ch : Channels) (args : List String) : Shell :=
  let quiet := args.head? == some "-n"
  let (cs, ends) := unescape (" ".intercalate (if quiet then args.drop 1 else args)).toList
  let line := String.ofList cs ++ if quiet || ends then "" else "\n"
  (s.write ch.out (utf8 line)).finish 0

def fill : List Char → List String → List Char × List String
  | '%' :: c :: rest, args =>
    if c = '%' then
      let (cs, left) := fill rest args
      ('%' :: cs, left)
    else
      let (cs, left) := fill rest args.tail
      let arg := args.head?.getD (if c = 'd' ∨ c = 'i' then "0" else "")
      ((if c = 'c' then arg.toList.take 1 else arg.toList) ++ cs, left)
  | c :: rest, args =>
    let (cs, left) := fill rest args
    (c :: cs, left)
  | [], args => ([], args)

/-- Fills a format again while arguments are left; every round but an idle one takes some. -/
def fillAll : Nat → List Char → List String → List Char
  | 0, _, _ => []
  | n + 1, format, args =>
    let (cs, left) := fill format args
    if left = [] ∨ left.length = args.length then cs else cs ++ fillAll n format left

def printf (s : Shell) (ch : Channels) (args : List String) : Shell :=
  let format := (unescape (args.head?.getD "").toList).1
  (s.write ch.out (utf8 (String.ofList (fillAll args.length format args.tail)))).finish 0

def signals : List (String × Nat) :=
  [("HUP", 1), ("INT", 2), ("QUIT", 3), ("ILL", 4), ("TRAP", 5), ("ABRT", 6), ("BUS", 7),
    ("FPE", 8), ("KILL", 9), ("USR1", 10), ("SEGV", 11), ("USR2", 12), ("PIPE", 13), ("ALRM", 14),
    ("TERM", 15)]

def signal? (name : String) : Option Nat :=
  match name.toNat? with
  | some n => some n
  | none =>
    if name.startsWith "SIG" then signals.lookup (String.ofList (name.toList.drop 3))
    else signals.lookup name

def kill (s : Shell) (args : List String) : Shell :=
  let (signal, targets) :=
    match args with
    | "-s" :: name :: rest => (signal? name, rest)
    | first :: rest =>
      if first.startsWith "-" then (signal? (String.ofList (first.toList.drop 1)), rest)
      else (some 15, args)
    | [] => (none, [])
  match signal with
  | none => s.finish 2
  | some 0 => s.finish 0
  | some n =>
    if targets.contains processId then { s with ended := some (.signal n) } else s.finish 1

def find (s : Shell) (path : String) : Option Node :=
  (s.files.locate s.directory path).toOption.bind s.files.get?

def cat (s : Shell) (ch : Channels) : List String → Shell
  | [] => s
  | path :: rest =>
    let s :=
      if path = "-" then { s with input := [] }.write ch.out s.input
      else
        match s.find path with
        | some (.file data _) => s.write ch.out data
        | some (.directory _) => s.complain ch s!"cat: {path}: Is a directory" 1
        | none => s.complain ch s!"cat: {path}: No such file or directory" 1
    s.cat ch rest

/-- The path of a copy: in a directory the file keeps its name. -/
def copyTarget (s : Shell) (source target : String) : String :=
  match s.find target with
  | some (.directory _) => target ++ "/" ++ (Node.lastName? source).getD ""
  | _ => target

def copy (s : Shell) (ch : Channels) (source target : String) : Shell :=
  match s.find source with
  | none => s.complain ch s!"cp: cannot stat '{source}': No such file or directory" 1
  | some (.directory _) =>
    s.complain ch s!"cp: -r not specified; omitting directory '{source}'" 1
  | some (.file data executable) =>
    let target := s.copyTarget source target
    match s.files.locate s.directory target with
    | .error _ =>
      s.complain ch s!"cp: cannot create regular file '{target}': No such file or directory" 1
    | .ok place =>
      let executable :=
        match s.files.get? place with
        | some (.file _ old) => old
        | _ => executable
      { s with files := s.files.set (some (.file data executable)) place }.finish 0

def changeMode (s : Shell) (ch : Channels) (mode : String) : List String → Shell
  | [] => s
  | path :: rest =>
    let s :=
      match s.files.locate s.directory path with
      | .ok place =>
        match s.files.get? place with
        | some (.file data old) =>
          let executable :=
            if mode.toList.contains '+' then old || mode.toList.contains 'x'
            else if mode.toList.contains '-' then old && !mode.toList.contains 'x'
            else mode.toList.any ['1', '3', '5', '7', 'x'].contains
          { s with files := s.files.set (some (.file data executable)) place }
        | some (.directory _) => s
        | none => s.complain ch s!"chmod: cannot access '{path}': No such file or directory" 1
      | .error _ => s.complain ch s!"chmod: cannot access '{path}': No such file or directory" 1
    s.changeMode ch mode rest

def removeAll (s : Shell) (ch : Channels) (quiet : Bool) : List String → Shell
  | [] => s
  | path :: rest =>
    let s :=
      match s.find path, s.files.remove s.directory path with
      | some (.file ..), .ok files => { s with files }
      | some (.directory _), _ => s.complain ch s!"rm: cannot remove '{path}': Is a directory" 1
      | _, _ =>
        if quiet then s
        else s.complain ch s!"rm: cannot remove '{path}': No such file or directory" 1
    s.removeAll ch quiet rest

def touch (s : Shell) : List String → Shell
  | [] => s
  | path :: rest =>
    let s :=
      match s.find path, s.files.write s.directory path [] with
      | none, .ok files => { s with files }
      | _, _ => s
    s.touch rest

def makeAll (s : Shell) : List String → Shell
  | [] => s
  | path :: rest =>
    let s :=
      match s.files.makeDirectories (Path.absolute (Path.render true s.directory) path) with
      | .ok files => { s with files }
      | .error _ => s.finish 1
    s.makeAll rest

def testPath (s : Shell) (option path : String) : Bool :=
  match s.find path with
  | none => false
  | some (.directory _) => option = "-e" ∨ option = "-d"
  | some (.file _ executable) => option = "-e" ∨ option = "-f" ∨ (option = "-x" ∧ executable)

def test (s : Shell) : List String → Bool
  | [a] => a ≠ ""
  | [option, a] =>
    if option = "-n" then a ≠ ""
    else if option = "-z" ∨ option = "!" then a = ""
    else s.testPath option a
  | [a, relation, b] =>
    match relation with
    | "=" => a = b
    | "!=" => a ≠ b
    | "-eq" => a.toInt? = b.toInt?
    | "-ne" => a.toInt? ≠ b.toInt?
    | "-lt" => a.toInt?.getD 0 < b.toInt?.getD 0
    | "-gt" => a.toInt?.getD 0 > b.toInt?.getD 0
    | _ => false
  | _ => false

def perform (s : Shell) (ch : Channels) (line : Nat) (name : String) (args : List String) : Shell :=
  let ok := s.finish 0
  let holds (b : Bool) := s.finish (if b then 0 else 1)
  match name with
  | ":" | "true" | "set" => ok
  | "false" => s.finish 1
  | "echo" => s.echo ch args
  | "printf" => s.printf ch args
  | "exit" =>
    match args.head?, args.head?.bind String.toNat? with
    | none, _ => { s with ended := some (.status s.status) }
    | _, some code => { s with ended := some (.status (.ofNat code)) }
    | some code, none =>
      let s := s.complain ch (s.origin line ++ "exit: Illegal number: " ++ code) 2
      { s with ended := some (.status 2) }
  | "kill" => s.kill args
  | "shift" => { ok with args := s.args.drop ((args.head?.bind String.toNat?).getD 1) }
  | "pwd" => (s.write ch.out (utf8 (Path.render true s.directory ++ "\n"))).finish 0
  | "test" => holds (s.test args)
  | "[" => holds (s.test args.dropLast)
  | "cat" => ok.cat ch (if args = [] then ["-"] else args)
  | "chmod" => ok.changeMode ch (args.head?.getD "") args.tail
  | "rm" => ok.removeAll ch (args.contains "-f") (args.filter (!·.startsWith "-"))
  | "touch" => ok.touch args
  | "mkdir" => ok.makeAll (args.filter (!·.startsWith "-"))
  | "cp" | "mv" =>
    match args with
    | [source, target] =>
      let t := s.copy ch source target
      if name = "mv" ∧ t.status = 0 then t.removeAll ch true [source] else t
    | _ => s.finish 1
  | _ => s.complain ch (s.origin line ++ name ++ ": not found") 127

def assignment? (w : Word) : Option (String × Word) :=
  let leading := w.takeWhile (fun p => p matches .text _ false)
  let text := ((plain? leading).getD "").toList
  let name := text.takeWhile (· ≠ '=')
  if name ≠ [] ∧ name.length < text.length ∧ name.all (fun c => c.isAlphanum ∨ c = '_') then
    some (String.ofList name,
      .text (String.ofList (text.drop (name.length + 1))) false :: w.drop leading.length)
  else none

def assign (s : Shell) (name value : String) : Shell :=
  { s with bindings := (name, value) :: s.bindings }

end Shell

open Shell

namespace Command

def run : Command → Channels → Shell → Shell
  | c, ch, s =>
    if s.ended.isSome then s
    else
      match c with
      | .nothing => s
      | .simple line words redirects =>
        match s.redirect ch redirects with
        | .error s => s
        | .ok (s, ch) =>
          let settings := words.takeWhile fun w => (assignment? w).isSome
          match (words.drop settings.length).flatMap s.expand with
          | [] =>
            (settings.filterMap assignment?).foldl
              (fun s (name, w) => s.assign name (s.expandOne w)) (s.finish 0)
          | name :: args => s.perform ch line name args
      | .group body redirects =>
        match s.redirect ch redirects with
        | .error s => s
        | .ok (s, ch) => body.run ch s
      | .subshell body redirects =>
        match s.redirect ch redirects with
        | .error s => s
        | .ok (s, ch) =>
          let t := body.run ch s
          let status :=
            match t.ended with
            | some (.status code) => code
            | _ => t.status
          let ended := t.ended.filter (fun e => e matches .signal _)
          { t with args := s.args, bindings := s.bindings, directory := s.directory, status, ended }
      | .sequence first second => second.run ch (first.run ch s)
      | .both first second =>
        let t := first.run ch s
        if t.status = 0 then second.run ch t else t
      | .either first second =>
        let t := first.run ch s
        if t.status = 0 then t else second.run ch t
      | .negate body =>
        let t := body.run ch s
        t.finish (if t.status = 0 then 1 else 0)
      | .pipe source target =>
        let t := source.run { ch with out := .pipe } { s with piped := [] }
        let t := { t with piped := s.piped, input := t.piped, ended := none, status := 0 }
        target.run ch t
      | .branch condition first second =>
        let t := condition.run ch s
        if t.status = 0 then first.run ch t else second.run ch (t.finish 0)
      | .each name words body =>
        let values := words.flatMap s.expand
        values.foldl (fun t value => body.run ch (t.assign name value)) (s.finish 0)

end Command

def tool (text : List Char) : Tool := fun call files =>
  let s : Shell :=
    { name := call.name, args := call.args, directory := call.directory, files
      bindings := [("PWD", Path.render true call.directory)] }
  let t :=
    match parse? text with
    | some c => c.run {} s
    | none => s.complain {} (s.origin 1 ++ "Syntax error") 2
  ⟨t.ended.getD (.status t.status), t.written, t.files⟩

end Reckon.Script
