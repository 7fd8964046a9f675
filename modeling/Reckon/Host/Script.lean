import Reckon.Host.Tool

/-!
Scripts: the commands of a small shell language, read from text. They only let the system in memory
run tools that are scripts; no result about a build rests on what a script does. Words keep which of
their parts were quoted, since only what was not quoted is split into fields.
-/

namespace Reckon.Script

inductive Part where
  | text (s : String) (quoted : Bool)
  | parameter (name : String) (quoted : Bool)
  deriving DecidableEq, Repr, Inhabited

abbrev Word := List Part

inductive Token where
  | word (w : Word)
  | mark (s : String)
  | descriptor (n : Nat)
  deriving DecidableEq, Repr, Inhabited

abbrev Tokens := List (Nat × Token)

def plain? : Word → Option String
  | [] => some ""
  | .text s false :: rest => (plain? rest).map (s ++ ·)
  | _ => none

def parameter? : List Char → Option (String × List Char)
  | [] => none
  | c :: rest =>
    let isName (c : Char) := c.isAlphanum || c == '_'
    if c = '\x7b' then
      some (String.ofList (rest.takeWhile (· ≠ '\x7d')), (rest.dropWhile (· ≠ '\x7d')).drop 1)
    else if c.isDigit || ['@', '*', '#', '?', '$', '!'].contains c then
      some (String.singleton c, rest)
    else if isName c then
      some (String.ofList (c :: rest.takeWhile isName), rest.dropWhile isName)
    else none

def quoted : Nat → List Char → Word × List Char
  | _, [] => ([], [])
  | 0, cs => ([], cs)
  | n + 1, c :: cs =>
    let keep (s : String) (rest : List Char) :=
      let (w, rest) := quoted n rest
      (.text s true :: w, rest)
    if c = '"' then ([], cs)
    else if c = '\\' then
      match cs with
      | d :: rest =>
        if d = '\n' then quoted n rest
        else if ['"', '\\', '$', '\x60'].contains d then keep (String.singleton d) rest
        else keep (String.ofList [c, d]) rest
      | [] => keep "\\" []
    else if c = '$' then
      match parameter? cs with
      | some (name, rest) =>
        let (w, rest) := quoted n rest
        (.parameter name true :: w, rest)
      | none => keep "$" cs
    else keep (String.singleton c) cs

def endsWord (c : Char) : Bool :=
  [' ', '\t', '\n', ';', '&', '|', '<', '>', '(', ')'].contains c

def word : Nat → List Char → Word × List Char
  | _, [] => ([], [])
  | 0, cs => ([], cs)
  | n + 1, c :: cs =>
    let keep (p : Part) (rest : List Char) :=
      let (w, rest) := word n rest
      (p :: w, rest)
    if endsWord c then ([], c :: cs)
    else if c = '\x27' then
      keep (.text (String.ofList (cs.takeWhile (· ≠ '\x27'))) true)
        ((cs.dropWhile (· ≠ '\x27')).drop 1)
    else if c = '"' then
      let (inner, rest) := quoted cs.length cs
      let (w, rest) := word n rest
      (.text "" true :: inner ++ w, rest)
    else if c = '\\' then
      match cs with
      | d :: rest => if d = '\n' then word n rest else keep (.text (String.singleton d) true) rest
      | [] => keep (.text "\\" false) []
    else if c = '$' then
      match parameter? cs with
      | some (name, rest) => keep (.parameter name false) rest
      | none => keep (.text "$" false) cs
    else keep (.text (String.singleton c) false) cs

def doubleMarks : List (List Char) :=
  [['&', '&'], ['|', '|'], [';', ';'], ['>', '>'], ['>', '&'], ['<', '&']]

def tokens : Nat → Nat → List Char → Tokens
  | _, _, [] => []
  | 0, _, _ => []
  | n + 1, line, c :: cs =>
    if c = ' ' ∨ c = '\t' then tokens n line cs
    else if c = '\n' then (line, .mark "\n") :: tokens n (line + 1) cs
    else if c = '#' then tokens n line (cs.dropWhile (· ≠ '\n'))
    else if doubleMarks.contains ((c :: cs).take 2) then
      (line, .mark (String.ofList ((c :: cs).take 2))) :: tokens n line (cs.drop 1)
    else if endsWord c then (line, .mark (String.singleton c)) :: tokens n line cs
    else
      let (w, rest) := word (cs.length + 1) (c :: cs)
      let lines := ((c :: cs).take (cs.length + 1 - rest.length)).count '\n'
      let redirects := rest.head? == some '<' || rest.head? == some '>'
      let token :=
        match (plain? w).bind String.toNat?, redirects with
        | some k, true => .descriptor k
        | _, _ => .word w
      (line, token) :: tokens n (line + lines) rest

inductive Direction where
  | write
  | append
  | read
  | copy
  deriving DecidableEq, Repr, Inhabited

structure Redirect where
  line : Nat
  descriptor : Nat
  direction : Direction
  target : Word
  deriving DecidableEq, Repr, Inhabited

inductive Command where
  | nothing
  | simple (line : Nat) (words : List Word) (redirects : List Redirect)
  | group (body : Command) (redirects : List Redirect)
  | subshell (body : Command) (redirects : List Redirect)
  | sequence (first second : Command)
  | both (first second : Command)
  | either (first second : Command)
  | negate (body : Command)
  | pipe (source target : Command)
  | branch (condition first second : Command)
  | each (name : String) (words : List Word) (body : Command)
  deriving Repr, Inhabited

def direction? : String → Option (Direction × Nat)
  | ">" => some (.write, 1)
  | ">>" => some (.append, 1)
  | ">&" => some (.copy, 1)
  | "<" => some (.read, 0)
  | "<&" => some (.copy, 0)
  | _ => none

def parts : Tokens → List Word × List Redirect × Tokens
  | (_, .word w) :: rest =>
    let (ws, rs, rest) := parts rest
    (w :: ws, rs, rest)
  | (line, .mark m) :: (l, .word w) :: rest =>
    match direction? m with
    | some (direction, n) =>
      let (ws, rs, rest) := parts rest
      (ws, ⟨line, n, direction, w⟩ :: rs, rest)
    | none => ([], [], (line, .mark m) :: (l, .word w) :: rest)
  | (line, .descriptor n) :: (l, .mark m) :: (l', .word w) :: rest =>
    match direction? m with
    | some (direction, _) =>
      let (ws, rs, rest) := parts rest
      (ws, ⟨line, n, direction, w⟩ :: rs, rest)
    | none => ([], [], (line, .descriptor n) :: (l, .mark m) :: (l', .word w) :: rest)
  | rest => ([], [], rest)

def closingWords : List String := ["\x7d", "then", "elif", "else", "fi", "do", "done", "esac"]

def reservedWords : List String :=
  ["\x7b", "!", "if", "while", "until", "for", "case"] ++ closingWords

def reserved? : Tokens → Option String
  | (_, .word w) :: _ => (plain? w).filter reservedWords.contains
  | _ => none

/-- Drops line ends and, where `also` says so, semicolons. -/
def skip (also : Bool) : Tokens → Tokens
  | (line, .mark m) :: rest =>
    if m = "\n" ∨ (also ∧ m = ";") then skip also rest else (line, .mark m) :: rest
  | ts => ts

def expect (name : String) (ts : Tokens) : Option Tokens :=
  if reserved? ts = some name then some (ts.drop 1) else none

mutual

def parseList : Nat → Tokens → Option (Command × Tokens)
  | 0, _ => none
  | n + 1, ts =>
    match skip true ts with
    | [] => some (.nothing, [])
    | ts@((_, t) :: _) =>
      if t = .mark ")" ∨ (reserved? ts).any closingWords.contains then
        some (.nothing, ts)
      else do
        let (first, rest) ← parseChain n ts
        match rest with
        | (_, .mark m) :: _ =>
          if m = ";" ∨ m = "\n" ∨ m = "&" then
            let (second, rest) ← parseList n (rest.drop 1)
            return (.sequence first second, rest)
          else return (first, rest)
        | _ => return (first, rest)

def parseChain : Nat → Tokens → Option (Command × Tokens)
  | 0, _ => none
  | n + 1, ts => do
    let (first, rest) ← parsePipe n ts
    continueChain n first rest

def continueChain : Nat → Command → Tokens → Option (Command × Tokens)
  | 0, _, _ => none
  | n + 1, first, ts =>
    match ts with
    | (_, .mark "&&") :: rest => do
      let (second, rest) ← parsePipe n (skip false rest)
      continueChain n (.both first second) rest
    | (_, .mark "||") :: rest => do
      let (second, rest) ← parsePipe n (skip false rest)
      continueChain n (.either first second) rest
    | _ => some (first, ts)

def parsePipe : Nat → Tokens → Option (Command × Tokens)
  | 0, _ => none
  | n + 1, ts =>
    if reserved? ts = some "!" then do
      let (body, rest) ← parsePipe n (ts.drop 1)
      return (.negate body, rest)
    else do
      let (first, rest) ← parseCommand n ts
      match rest with
      | (_, .mark "|") :: rest =>
        let (second, rest) ← parsePipe n (skip false rest)
        return (.pipe first second, rest)
      | _ => return (first, rest)

def parseCommand : Nat → Tokens → Option (Command × Tokens)
  | 0, _ => none
  | n + 1, ts =>
    match ts with
    | (_, .mark "(") :: rest => do
      let (body, rest) ← parseList n rest
      match rest with
      | (_, .mark ")") :: rest =>
        let (_, rs, rest) := parts rest
        return (.subshell body rs, rest)
      | _ => none
    | _ =>
      match reserved? ts with
      | some "\x7b" => do
        let (body, rest) ← parseList n (ts.drop 1)
        let (_, rs, rest) := parts (← expect "\x7d" rest)
        return (.group body rs, rest)
      | some "if" => do
        let (c, rest) ← parseBranch n (ts.drop 1)
        let (_, rs, rest) := parts rest
        return (.group c rs, rest)
      | some "for" => do
        let (c, rest) ← parseEach n (ts.drop 1)
        let (_, rs, rest) := parts rest
        return (.group c rs, rest)
      | some _ => none
      | none =>
        match parts ts, ts with
        | ([], [], _), _ => none
        | (ws, rs, rest), (line, _) :: _ => some (.simple line ws rs, rest)
        | _, [] => none

/-- A loop over words, from its variable on. Without words of its own it goes over the arguments. -/
def parseEach : Nat → Tokens → Option (Command × Tokens)
  | 0, _ => none
  | n + 1, ts => do
    let (head, _, rest) := parts ts
    let (first, words) ← head.head?.map fun w => (w, head.tail)
    let name ← plain? first
    let words ←
      match words with
      | [] => some [[.parameter "@" true]]
      | mark :: words => if plain? mark = some "in" then some words else none
    let (body, rest) ← parseList n (← expect "do" (skip true rest))
    return (.each name words body, ← expect "done" rest)

def parseBranch : Nat → Tokens → Option (Command × Tokens)
  | 0, _ => none
  | n + 1, ts => do
    let (condition, rest) ← parseList n ts
    let (first, rest) ← parseList n (← expect "then" rest)
    match reserved? rest with
    | some "elif" =>
      let (second, rest) ← parseBranch n (rest.drop 1)
      return (.branch condition first second, rest)
    | some "else" =>
      let (second, rest) ← parseList n (rest.drop 1)
      return (.branch condition first second, ← expect "fi" rest)
    | _ => return (.branch condition first .nothing, ← expect "fi" rest)

end

def parse? (text : List Char) : Option Command := do
  let ts := tokens (text.length + 1) 1 text
  -- every call of a parser takes a token or goes one of six levels down
  let (c, rest) ← parseList (8 * ts.length + 8) ts
  if rest.isEmpty then some c else none

end Reckon.Script
