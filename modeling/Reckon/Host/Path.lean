namespace Reckon.Path

def split : List Char → List (List Char)
  | [] => [[]]
  | c :: cs =>
    if c = '/' then [] :: split cs
    else
      match split cs with
      | [] => [[c]]
      | name :: names => (c :: name) :: names

def names (path : String) : List String := (split path.toList).map String.ofList

def isRooted (path : String) : Bool := path.toList.head? == some '/'

/-- Goes one name further from the names walked so far, of which the last comes first. -/
def walk (rooted : Bool) (walked : List String) (name : String) : List String :=
  if name = "" ∨ name = "." then walked
  else if name = ".." then
    match walked with
    | [] => if rooted then [] else [".."]
    | last :: rest => if last = ".." then ".." :: walked else rest
  else name :: walked

def normal (rooted : Bool) (names : List String) : List String :=
  (names.foldl (walk rooted) []).reverse

/-- The text of some names; no name at all is the root or a dot. -/
def render (rooted : Bool) (names : List String) : String :=
  if rooted then "/" ++ "/".intercalate names
  else if names = [] then "."
  else "/".intercalate names

/-- The shortest path that leads to the same place by its text alone. -/
def clean (path : String) : String :=
  render (isRooted path) (normal (isRooted path) (names path))

/-- A path below another one. An empty part does not count, and two of them give nothing. -/
def join (dir name : String) : String :=
  if dir = "" then (if name = "" then "" else clean name)
  else clean (dir ++ "/" ++ name)

def absolute (dir path : String) : String :=
  if isRooted path then clean path else join dir path

end Reckon.Path
