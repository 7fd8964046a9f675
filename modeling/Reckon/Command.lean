import Reckon.Build
import Reckon.Command.Flags
import Reckon.Generator

namespace Reckon

inductive Verb where
  | file
  | lex
  | parse
  deriving DecidableEq, Repr, Inhabited

namespace Verb

def ofName? : String → Option Verb
  | "file" => some .file
  | "lex" => some .lex
  | "parse" => some .parse
  | _ => none

def commonFlags : Flags := [{ name := "out", short := some 'o' }]

def helpFlag : Flag := { name := "help", short := some 'h', isSwitch := true }

def flags : Option Verb → Flags
  | some .file =>
    [{ name := "name" }, { name := "nasm" }, { name := "ld" },
      { name := "emit-only", isSwitch := true }, { name := "emulate", isSwitch := true },
      { name := "verbose", short := some 'v', isSwitch := true }] ++ commonFlags ++ [helpFlag]
  | _ => commonFlags ++ [helpFlag]

end Verb

structure Options where
  build : Build := {}
  emitOnly : Bool := false
  emulate : Bool := false
  verbose : Bool := false
  deriving DecidableEq, Repr, Inhabited

def Options.set (o : Options) (s : Setting) : Options :=
  match s.flag, s.value with
  | "out", .text v => { o with build.directory := v }
  | "name", .text v => { o with build.name := v }
  | "nasm", .text v => { o with build.assembler := v }
  | "ld", .text v => { o with build.linker := v }
  | "emit-only", .switch b => { o with emitOnly := b }
  | "emulate", .switch b => { o with emulate := b }
  | "verbose", .switch b => { o with verbose := b }
  | _, _ => o

inductive Request where
  | help
  | lex (path : String)
  | parse (path : String)
  | file (options : Options) (path : String)
  deriving DecidableEq, Repr, Inhabited

inductive UsageError where
  | unknownCommand (name : String)
  | flags (error : FlagError)
  | argumentCount (received : Nat)
  | exclusive
  deriving DecidableEq, Repr, Inhabited

def UsageError.text : UsageError → String
  | .unknownCommand name => "unknown command " ++ quote name ++ " for \"danfe\""
  | .flags e => e.text
  | .argumentCount n => s!"accepts 1 arg(s), received {n}"
  | .exclusive =>
    "if any flags in the group [emit-only emulate] are set none of the others can be; " ++
      "[emit-only emulate] were all set"

namespace Request

def find (args : List String) : Except UsageError (Option Verb × List String) :=
  match Verb.commonFlags.words args with
  | [] => .ok (none, args)
  | word :: _ =>
    match Verb.ofName? word with
    | some verb => .ok (some verb, Verb.commonFlags.dropWord word args)
    | none => .error (.unknownCommand word)

def isOn (settings : List Setting) (flag : String) : Bool :=
  (settings.reverse.find? (·.flag = flag)).any (·.value = .switch true)

/-- Reads a command line. The flags are looked at first, then the number of arguments, and last
whether flags that exclude each other are given. -/
def ofArgs (args : List String) : Except UsageError Request := do
  let (verb, args) ← find args
  let (settings, args) ← ((Verb.flags verb).parse args).mapError .flags
  if isOn settings "help" then return .help
  match verb, args with
  | none, _ => return .help
  | some verb, [path] =>
    let given (flag : String) := settings.any (·.flag = flag)
    match verb with
    | .lex => return .lex path
    | .parse => return .parse path
    | .file =>
      if given "emit-only" ∧ given "emulate" then throw .exclusive
      return .file (settings.foldl Options.set {}) path
  | some _, args => throw (.argumentCount args.length)

end Request

inductive CommandError where
  | usage (error : UsageError)
  | read (path : String) (fault : Fault)
  | lex (path : String) (error : LexError)
  | parse (path : String) (error : ParseError)
  | emulate (error : EmulateError)
  | generate (error : GenerateError)
  | stage (error : StageError)
  deriving DecidableEq, Repr

/-- A failed command as it is reported. A place in a source follows the path of the source. -/
def CommandError.diagnostic : CommandError → Diagnostic
  | .usage e => .note e.text
  | .read path fault =>
    .within "read error: " (.lexical ⟨.unreadable path, .zero⟩ (some (.note fault.text)))
  | .lex path e => .within ("lex error: " ++ path ++ ":" ++ e.pos.text ++ ": ") e.diagnostic
  | .parse path e => .within ("parse error: " ++ path ++ ":") e.diagnostic
  | .emulate e@(.lower (.unsupported _)) => .within "codegen error: " e.diagnostic
  | .emulate e => .within "emulate error: " e.diagnostic
  | .generate e => .within "codegen error: " e.diagnostic
  | .stage e => e.diagnostic

namespace Command

variable {m : Type → Type} [Monad m] [Host m]

def print (stream : Stream) (text : String) : ExceptT CommandError m Unit :=
  ExceptT.lift (Host.print stream (utf8 text))

def readSource (path : String) : ExceptT CommandError m (List Char) := do
  let data ← (ExceptT.mk (Host.read (m := m) path)).adapt (.read path)
  return (Text.decode data).chars

def readProgram (path : String) : ExceptT CommandError m Program := do
  let source ← readSource path
  (ExceptT.mk (pure (Program.parse source))).adapt (.parse path)

def lex (path : String) : ExceptT CommandError m Unit := do
  let source ← readSource path
  let (tokens, error) := Reckon.lex source
  print .stdout (String.join (tokens.map fun t => t.line ++ "\n"))
  match error with
  | some e => throw (.lex path e)
  | none => return

def parse (path : String) : ExceptT CommandError m Unit := do
  let program ← readProgram path
  print .stdout program.text

def emulate (p : Program) : ExceptT CommandError m Unit := do
  let (output, error) := p.emulate {}
  ExceptT.lift (Host.print .stdout output.content)
  match error with
  | some e => throw (.emulate e)
  | none => return

def assembly (p : Program) : Except CommandError Bytes :=
  match p.generate {} with
  | (_, some e) => .error (.generate e)
  | (output, none) => .ok output.content

/-- Compiles and runs a source. All of the assembly is there before any of it is written. -/
def file (o : Options) (path : String) : ExceptT CommandError m Unit := do
  let log (text : String) : ExceptT CommandError m Unit :=
    if o.verbose then print .stderr (text ++ "\n") else pure ()
  let stage (x : ExceptT StageError m Unit) : ExceptT CommandError m Unit := x.adapt .stage
  let program ← readProgram path
  log s!"parsed {program.exprs.length} expressions from {path}"
  if o.emulate then
    emulate program
  else
    let (prepared, build) ← ExceptT.lift (o.build.prepare (m := m))
    stage (.mk (pure prepared))
    let code ← ExceptT.mk (pure (assembly program))
    stage (build.write code)
    log s!"generated {code.length} bytes -> {build.asmPath}"
    if !o.emitOnly then
      stage build.assemble
      log s!"assembled -> {build.objPath}"
      stage build.link
      log s!"linked -> {build.exePath}"
      stage build.run

def perform : Request → ExceptT CommandError m Unit
  | .help => print .stdout "usage: danfe file|lex|parse <path>\n"
  | .lex path => lex path
  | .parse path => parse path
  | .file options path => file options path

def run (args : List String) : ExceptT CommandError m Unit := do
  let request ← (ExceptT.mk (pure (Request.ofArgs args))).adapt .usage
  perform request

end Command

end Reckon
