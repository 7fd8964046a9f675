import Reckon.Host.Fault
import Reckon.Host.Path

/-!
A tree of files. A place in it is the list of names that lead there from the root; a path is
followed name by name, and whatever it passes through must be a directory.

There are no symbolic links in the tree: a node is a file or a directory, and a name leads to one
place only. What is proved of the directory that `Build.prepare` leaves rests on this. Through a
link the path that is cleared could lead elsewhere.
-/

namespace Reckon

inductive Node where
  | file (data : Bytes) (executable : Bool)
  | directory (entries : List (String × Node))
  deriving Inhabited

abbrev Place := List String

namespace Node

def update (entries : List (String × Node)) (name : String) (new : Option Node) :
    List (String × Node) :=
  let others := entries.filter fun e => e.1 ≠ name
  match new with
  | some n => (name, n) :: others
  | none => others

theorem lookup_filter_self (es : List (String × Node)) (name : String) :
    (es.filter fun e => e.1 ≠ name).lookup name = none := by
  rw [List.lookup_eq_none_iff]
  intro e he
  have hne : e.1 ≠ name := by simpa using (List.mem_filter.1 he).2
  exact bne_iff_ne.2 hne.symm

theorem lookup_filter_of_ne (es : List (String × Node)) {name other : String} (h : other ≠ name) :
    (es.filter fun e => e.1 ≠ name).lookup other = es.lookup other := by
  induction es with
  | nil => rfl
  | cons e es ih =>
    obtain ⟨k, n⟩ := e
    by_cases hk : k = name
    · have ho : (other == k) = false := by rw [hk]; exact beq_false_of_ne h
      rw [List.filter_cons_of_neg (by simp [hk]), List.lookup_cons, ho]
      exact ih
    · rw [List.filter_cons_of_pos (by simp [hk]), List.lookup_cons, List.lookup_cons, ih]

@[simp] theorem lookup_update_self (es : List (String × Node)) (name : String)
    (new : Option Node) : (update es name new).lookup name = new := by
  cases new with
  | none => exact lookup_filter_self es name
  | some n => simp [update]

theorem lookup_update_of_ne (es : List (String × Node)) {name other : String}
    (new : Option Node) (h : other ≠ name) :
    (update es name new).lookup other = es.lookup other := by
  cases new with
  | none => exact lookup_filter_of_ne es h
  | some n =>
    have ho : (other == name) = false := beq_false_of_ne h
    simp only [update, List.lookup_cons, ho]
    exact lookup_filter_of_ne es h

def get? : Node → Place → Option Node
  | n, [] => some n
  | .file .., _ :: _ => none
  | .directory entries, name :: rest =>
    match entries.lookup name with
    | some n => n.get? rest
    | none => none

/-- Puts something at a place, or takes away what is there. Nothing happens where no directory is on
the way, and the root stays. -/
def set (new : Option Node) : Place → Node → Node
  | [], n => n
  | _ :: _, .file data executable => .file data executable
  | [name], .directory entries => .directory (update entries name new)
  | name :: rest, .directory entries =>
    .directory (update entries name ((entries.lookup name).map (set new rest)))

theorem get?_set_concat (new : Option Node) (place : Place) (name : String) (root : Node)
    {entries : List (String × Node)} (h : root.get? place = some (.directory entries)) :
    (root.set new (place ++ [name])).get? (place ++ [name]) = new := by
  induction place generalizing root with
  | nil =>
    cases h
    cases new <;> simp [set, get?]
  | cons first rest ih =>
    cases root with
    | file => simp [get?] at h
    | directory es =>
      simp only [get?] at h
      split at h
      case h_1 n hn =>
        have hr : rest ++ [name] ≠ [] := by simp
        cases hc : rest ++ [name] with
        | nil => exact absurd hc hr
        | cons second others =>
          have := ih n h
          rw [hc] at this
          simp [hc, set, get?, hn, this]
      · cases h

def follow (root : Node) (place : Place) : List String → Except Reason Place
  | [] => .ok place
  | name :: rest =>
    match root.get? place with
    | none => .error .noEntry
    | some (.file ..) => .error .notDirectory
    | some (.directory _) =>
      if name = "" ∨ name = "." then root.follow place rest
      else if name = ".." then root.follow place.dropLast rest
      else root.follow (place ++ [name]) rest

/-- The place a path leads to from a working directory. All but the last name of it is there. -/
def locate (root : Node) (dir : Place) (path : String) : Except Reason Place :=
  if path = "" then .error .noEntry
  else root.follow (if Path.isRooted path then [] else dir) (Path.names path)

def read (root : Node) (dir : Place) (path : String) : Except Fault Bytes :=
  match root.locate dir path with
  | .error reason => .error (.file .open path reason)
  | .ok place =>
    match root.get? place with
    | none => .error (.file .open path .noEntry)
    | some (.directory _) => .error (.file .read path .isDirectory)
    | some (.file data _) => .ok data

def write (root : Node) (dir : Place) (path : String) (data : Bytes) : Except Fault Node :=
  match root.locate dir path with
  | .error reason => .error (.file .open path reason)
  | .ok place =>
    match root.get? place with
    | none => .ok (root.set (some (.file data false)) place)
    | some (.directory _) => .error (.file .open path .isDirectory)
    | some (.file _ executable) => .ok (root.set (some (.file data executable)) place)

/-- Makes the directories `rest` below the place `place`, those that are not there yet. -/
def makeBelow (root : Node) (place : Place) : List String → Except Fault Node
  | [] =>
    match root.get? place with
    | some (.file ..) => .error (.file .mkdir (Path.render true place) .notDirectory)
    | some (.directory _) => .ok root
    | none => .ok (root.set (some (.directory [])) place)
  | name :: rest =>
    match root.get? place with
    | some (.file ..) => .error (.file .mkdir (Path.render true place) .notDirectory)
    | some (.directory _) => root.makeBelow (place ++ [name]) rest
    | none => (root.set (some (.directory [])) place).makeBelow (place ++ [name]) rest

def makeDirectories (root : Node) (path : String) : Except Fault Node :=
  root.makeBelow [] (Path.normal true (Path.names path))

/-- The last name of a path that does not end in slashes alone. -/
def lastName? (path : String) : Option String :=
  ((Path.names path).filter (· ≠ "")).getLast?

def remove (root : Node) (dir : Place) (path : String) : Except Fault Node :=
  let refuse reason := .error (.file .remove path reason)
  match root.locate dir path with
  | .error reason => refuse reason
  | .ok place =>
    match root.get? place with
    | none => refuse .noEntry
    | some (.file ..) => .ok (root.set none place)
    | some (.directory entries) =>
      match lastName? path with
      | none => refuse .busy
      | some name =>
        if name = "." then refuse .invalid
        else if name = ".." ∨ entries ≠ [] then refuse .notEmpty
        else .ok (root.set none place)

mutual

/-- All that stands below a node, with the names that lead there; a directory has no content. -/
def listing (place : Place) : Node → List (Place × Option Bytes)
  | .file .. => []
  | .directory entries => listEntries place entries

def listEntries (place : Place) : List (String × Node) → List (Place × Option Bytes)
  | [] => []
  | e :: es => listEntry place e ++ listEntries place es

def listEntry (place : Place) : String × Node → List (Place × Option Bytes)
  | (name, .file data _) => [(place ++ [name], some data)]
  | (name, .directory entries) =>
    (place ++ [name], none) :: listEntries (place ++ [name]) entries

end

end Node

end Reckon
