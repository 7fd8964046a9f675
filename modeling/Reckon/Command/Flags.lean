import Reckon.Text.Quoted

namespace Reckon

structure Flag where
  name : String
  short : Option Char := none
  /-- A switch takes a value only after an equals sign. -/
  isSwitch : Bool := false
  deriving DecidableEq, Repr, Inhabited

namespace Flag

def label (f : Flag) : String :=
  match f.short with
  | some c => "-" ++ String.singleton c ++ ", --" ++ f.name
  | none => "--" ++ f.name

end Flag

inductive FlagValue where
  | switch (on : Bool)
  | text (s : String)
  deriving DecidableEq, Repr, Inhabited

structure Setting where
  flag : String
  value : FlagValue
  deriving DecidableEq, Repr, Inhabited

inductive FlagError where
  | badSyntax (arg : String)
  | unknown (name : String)
  | unknownShort (c : Char) (group : String)
  | needsValue (arg : String)
  | needsValueShort (c : Char)
  | invalid (flag : Flag) (value : String)
  deriving DecidableEq, Repr, Inhabited

def FlagError.text : FlagError → String
  | .badSyntax arg => "bad flag syntax: " ++ arg
  | .unknown name => "unknown flag: --" ++ name
  | .unknownShort c group => "unknown shorthand flag: " ++ quoteChar c ++ " in -" ++ group
  | .needsValue arg => "flag needs an argument: " ++ arg
  | .needsValueShort c =>
    "flag needs an argument: " ++ quoteChar c ++ " in -" ++ String.singleton c
  | .invalid flag value =>
    "invalid argument " ++ quote value ++ " for " ++ quote flag.label ++
      " flag: strconv.ParseBool: parsing " ++ quote value ++ ": invalid syntax"

abbrev Flags := List Flag

namespace Flags

def long? (fs : Flags) (name : String) : Option Flag := fs.find? fun f => f.name = name

def short? (fs : Flags) (c : Char) : Option Flag := fs.find? fun f => f.short = some c

def switchValue? (s : String) : Option Bool :=
  if ["1", "t", "T", "TRUE", "true", "True"].contains s then some true
  else if ["0", "f", "F", "FALSE", "false", "False"].contains s then some false
  else none

def set (f : Flag) (value : String) : Except FlagError Setting :=
  if f.isSwitch then
    match switchValue? value with
    | some on => .ok ⟨f.name, .switch on⟩
    | none => .error (.invalid f value)
  else .ok ⟨f.name, .text value⟩

/-- Reads a long flag. The result says whether the argument after it was its value. -/
def readLong (fs : Flags) (arg : String) (next : Option String) :
    Except FlagError (List Setting × Bool) :=
  let body := arg.toList.drop 2
  let name := String.ofList (body.takeWhile (· ≠ '='))
  let value := body.dropWhile (· ≠ '=')
  if name = "" ∨ body.head? = some '-' then .error (.badSyntax arg)
  else
    match fs.long? name with
    | none => .error (.unknown name)
    | some f =>
      if value ≠ [] then do return ([← set f (String.ofList value.tail)], false)
      else if f.isSwitch then .ok ([⟨f.name, .switch true⟩], false)
      else
        match next with
        | some v => do return ([← set f v], true)
        | none => .error (.needsValue arg)

/-- The character whose number is the first byte of another one. -/
def firstByte (c : Char) : Char := Char.ofNat ((String.utf8EncodeChar c).headD 0).toNat

/-- Reads a group of short flags. The result says whether the argument after it was a value. -/
def readShort (fs : Flags) (next : Option String) :
    List Char → Except FlagError (List Setting × Bool)
  | [] => .ok ([], false)
  | c :: rest =>
    let group := String.ofList (c :: rest)
    -- such a group belongs to a test runner and is left alone
    if "test.".toList.isPrefixOf (c :: rest) then .ok ([], false)
    else
      match fs.short? c with
      | none => .error (.unknownShort (firstByte c) group)
      | some f =>
        if rest.head? = some '=' ∧ rest.length > 1 then do
          return ([← set f (String.ofList rest.tail)], false)
        else if f.isSwitch then do
          let (more, used) ← readShort fs next rest
          return (⟨f.name, .switch true⟩ :: more, used)
        else if rest ≠ [] then do return ([← set f (String.ofList rest)], false)
        else
          match next with
          | some v => do return ([← set f v], true)
          | none => .error (.needsValueShort c)

def isPositional (arg : String) : Bool :=
  match arg.toList with
  | '-' :: _ :: _ => false
  | _ => true

def read (fs : Flags) (arg : String) (next : Option String) :
    Except FlagError (List Setting × Bool) :=
  if arg.toList.take 2 = ['-', '-'] then fs.readLong arg next
  else fs.readShort next (arg.toList.drop 1)

def parse (fs : Flags) : List String → Except FlagError (List Setting × List String)
  | [] => .ok ([], [])
  | arg :: rest =>
    if isPositional arg then do
      let (settings, args) ← parse fs rest
      return (settings, arg :: args)
    else if arg = "--" then .ok ([], rest)
    else do
      let (settings, used) ← fs.read arg rest.head?
      match rest with
      | [] => return (settings, [])
      | value :: others =>
        let (more, args) ← if used then parse fs others else parse fs (value :: others)
        return (settings ++ more, args)

/-- Whether an argument is taken for a flag whose value stands in the next one. Flags that are not
known count, and those with an equals sign do not. -/
def takesNext (fs : Flags) (arg : String) : Bool :=
  let isSwitch (f : Option Flag) := f.any Flag.isSwitch
  !arg.toList.contains '=' &&
    match arg.toList with
    | '-' :: '-' :: name => !isSwitch (fs.long? (String.ofList name))
    | ['-', c] => c.utf8Size = 1 && !isSwitch (fs.short? c)
    | _ => false

/-- The arguments that are neither flags nor their values, before any flag is read. The search ends
at `--`, and at a flag whose value is the last argument. -/
def words (fs : Flags) : List String → List String
  | [] => []
  | arg :: rest =>
    if arg = "--" then []
    else if fs.takesNext arg then
      match rest with
      | _ :: next :: more => words fs (next :: more)
      | _ => []
    else if arg ≠ "" ∧ arg.toList.head? ≠ some '-' then arg :: words fs rest
    else words fs rest

def dropWord (fs : Flags) (word : String) : List String → List String
  | [] => []
  | arg :: rest =>
    if arg = "--" then arg :: rest
    else if fs.takesNext arg then
      match rest with
      | [] => [arg]
      | value :: more => arg :: value :: dropWord fs word more
    else if arg = word then rest
    else arg :: dropWord fs word rest

end Flags

end Reckon
