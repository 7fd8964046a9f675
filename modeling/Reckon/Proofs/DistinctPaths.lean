import Mathlib
import Reckon.Proofs.OutputDirectory

namespace Reckon

namespace Path

def step (place : List String) (name : String) : List String :=
  if name = "" ∨ name = "." then place
  else if name = ".." then place.dropLast
  else place ++ [name]

/-- The place that a path leads to from another one, whatever stands on the way. -/
def target (start : List String) (path : String) : List String :=
  (names path).foldl step (if isRooted path then [] else start)

/-- A name that cleaning keeps: one that leads a step down, or a pair of dots. -/
structure IsKept (name : String) : Prop where
  nonempty : name ≠ ""
  not_dot : name ≠ "."
  no_slash : '/' ∉ name.toList

theorem step_name {name : String} (h : IsName name) (place : List String) :
    step place name = place ++ [name] := by
  simp [step, h.nonempty, h.not_dot, h.not_dots]

theorem step_dots {name : String} (h : IsName name) (place : List String) :
    step (step place name) ".." = place := by
  rw [step_name h]
  simp [step]

theorem eq_of_step_eq_concat {place : List String} {name last : String}
    (h : step place name = place ++ [last]) : name = last := by
  unfold step at h
  split at h
  · simp at h
  · split at h
    · have hlength := congrArg List.length h
      simp only [List.length_dropLast, List.length_append, List.length_singleton] at hlength
      omega
    · simpa using h

theorem mem_walk {rooted : Bool} {walked : List String} {name n : String}
    (h : n ∈ walk rooted walked name) : n ∈ walked ∨ n = name ∧ name ≠ "" ∧ name ≠ "." := by
  unfold walk at h
  grind

theorem walk_isKept {rooted : Bool} {walked : List String} {name : String}
    (hw : ∀ n ∈ walked, IsKept n) (hname : '/' ∉ name.toList) :
    ∀ n ∈ walk rooted walked name, IsKept n := by
  intro n hn
  obtain hn | ⟨rfl, hempty, hdot⟩ := mem_walk hn
  · exact hw n hn
  · exact ⟨hempty, hdot, hname⟩

theorem foldl_walk_isKept {rooted : Bool} {ns walked : List String}
    (hw : ∀ n ∈ walked, IsKept n) (hns : ∀ n ∈ ns, '/' ∉ n.toList) :
    ∀ n ∈ ns.foldl (walk rooted) walked, IsKept n := by
  induction ns generalizing walked with
  | nil => exact hw
  | cons name ns ih =>
    obtain ⟨hname, hns⟩ := List.forall_mem_cons.1 hns
    exact ih (walk_isKept hw hname) hns

theorem isKept_of_mem_normal {rooted : Bool} {path n : String}
    (h : n ∈ normal rooted (names path)) : IsKept n := by
  have hslash : ∀ m ∈ names path, '/' ∉ m.toList := fun m => no_slash_of_mem_names
  exact foldl_walk_isKept (List.forall_mem_nil _) hslash n (List.mem_reverse.1 h)

theorem foldl_step_reverse_cons (name : String) (walked place : List String) :
    (name :: walked).reverse.foldl step place = step (walked.reverse.foldl step place) name := by
  rw [List.reverse_cons, List.foldl_append]
  rfl

/-- One more name, walked while cleaning, leads where it leads from the names walked so far. A path
that starts at the root is followed from there, where a pair of dots leads nowhere. -/
theorem foldl_step_walk {rooted : Bool} {walked place : List String}
    (hw : ∀ n ∈ walked, IsKept n) (hroot : rooted = true → place = []) (name : String) :
    (walk rooted walked name).reverse.foldl step place =
      step (walked.reverse.foldl step place) name := by
  unfold walk
  split
  case isTrue hplain =>
    rw [step, if_pos hplain]
  · split
    case isTrue hdots =>
      subst hdots
      cases walked with
      | nil =>
        cases rooted with
        | false => rfl
        | true =>
          rw [hroot rfl]
          rfl
      | cons last rest =>
        by_cases hlast : last = ".."
        · simp only [hlast, if_true]
          exact foldl_step_reverse_cons ".." _ _
        · -- a name that was kept and is no pair of dots led one step down
          have hkept := hw last List.mem_cons_self
          have hname : IsName last := ⟨hkept.nonempty, hkept.not_dot, hlast, hkept.no_slash⟩
          simp only [hlast, if_false]
          rw [foldl_step_reverse_cons, step_dots hname]
    · exact foldl_step_reverse_cons name walked place

theorem foldl_step_foldl_walk {rooted : Bool} {ns walked place : List String}
    (hw : ∀ n ∈ walked, IsKept n) (hns : ∀ n ∈ ns, '/' ∉ n.toList)
    (hroot : rooted = true → place = []) :
    (ns.foldl (walk rooted) walked).reverse.foldl step place =
      ns.foldl step (walked.reverse.foldl step place) := by
  induction ns generalizing walked with
  | nil => rfl
  | cons name ns ih =>
    obtain ⟨hname, hns⟩ := List.forall_mem_cons.1 hns
    rw [List.foldl_cons, ih (walk_isKept hw hname) hns, foldl_step_walk hw hroot, List.foldl_cons]

theorem foldl_step_normal {rooted : Bool} {place : List String} (path : String)
    (hroot : rooted = true → place = []) :
    (normal rooted (names path)).foldl step place = (names path).foldl step place :=
  foldl_step_foldl_walk (List.forall_mem_nil _) (fun _ => no_slash_of_mem_names) hroot

theorem names_render_relative {ns : List String} (hns : ns ≠ []) (h : ∀ n ∈ ns, IsKept n) :
    names (render false ns) = ns := by
  have hrooted := names_render hns fun n hn => (h n hn).no_slash
  have hslash (text : String) : names ("/" ++ text) = "" :: names text := by
    simp [names, split, String.toList_append]
  rw [render, if_pos rfl, hslash] at hrooted
  rw [render, if_neg Bool.false_ne_true, if_neg hns]
  exact (List.cons.inj hrooted).2

theorem empty_mem_names {path : String} (h : isRooted path = true) : "" ∈ names path := by
  rw [isRooted, beq_iff_eq, List.head?_eq_some_iff] at h
  obtain ⟨rest, hrest⟩ := h
  rw [names, hrest]
  exact List.mem_cons_self

theorem isRooted_render_relative {ns : List String} (h : ∀ n ∈ ns, IsKept n) :
    isRooted (render false ns) = false := by
  cases ns with
  | nil => rfl
  | cons name ns =>
    apply Bool.eq_false_iff.2
    intro hrooted
    -- the slash in front would leave an empty name, and none was kept
    have hempty := empty_mem_names hrooted
    rw [names_render_relative (List.cons_ne_nil _ _) h] at hempty
    exact (h "" hempty).nonempty rfl

theorem target_render {rooted : Bool} {ns : List String} (h : ∀ n ∈ ns, IsKept n)
    (start : List String) :
    target start (render rooted ns) = ns.foldl step (if rooted then [] else start) := by
  cases rooted with
  | false =>
    rw [target, isRooted_render_relative h]
    cases ns with
    | nil => rfl
    | cons name ns => rw [names_render_relative (List.cons_ne_nil _ _) h]
  | true =>
    rw [target, isRooted_render]
    cases ns with
    | nil => rfl
    | cons name ns =>
      rw [names_render (List.cons_ne_nil _ _) fun n hn => (h n hn).no_slash]
      rfl

theorem target_clean (start : List String) (path : String) :
    target start (clean path) = target start path := by
  have hroot (h : isRooted path = true) : (if isRooted path then [] else start) = [] := if_pos h
  rw [clean, target_render (fun n => isKept_of_mem_normal), foldl_step_normal path hroot, target]

theorem isRooted_append_of_ne {path : String} (h : path ≠ "") (rest : String) :
    isRooted (path ++ rest) = isRooted path := by
  have hne : path.toList ≠ [] := by simpa using h
  rw [isRooted, isRooted, String.toList_append, List.head?_append_of_ne_nil _ hne]

theorem isRooted_append_suffix {suffix : String} (h : '/' ∉ suffix.toList) (path : String) :
    isRooted (path ++ suffix) = isRooted path := by
  by_cases hpath : path = ""
  · subst hpath
    rw [String.empty_append]
    apply Bool.eq_false_iff.2
    intro hrooted
    rw [isRooted, beq_iff_eq] at hrooted
    exact h (List.mem_of_mem_head? hrooted)
  · exact isRooted_append_of_ne hpath suffix

theorem target_join (start : List String) (dir name : String) :
    target start (join dir name) =
      (names name).foldl step (if dir = "" ∧ isRooted name then [] else target start dir) := by
  by_cases hdir : dir = ""
  · subst hdir
    by_cases hname : name = ""
    · subst hname
      rfl
    · rw [join, if_pos rfl, if_neg hname, target_clean, target]
      simp only [true_and]
      rfl
  · have hbelow : ¬ (dir = "" ∧ isRooted name = true) := fun h => hdir h.1
    rw [join, if_neg hdir, if_neg hbelow, target_clean, target, names_slash, List.foldl_append,
      String.append_assoc, isRooted_append_of_ne hdir, target]

theorem exists_split_append (cs : List Char) :
    ∃ front last, '/' ∉ last ∧
      ∀ suffix, '/' ∉ suffix → split (cs ++ suffix) = front ++ [last ++ suffix] := by
  induction cs with
  | nil => exact ⟨[], [], List.not_mem_nil, fun suffix h => split_of_no_slash h⟩
  | cons c cs ih =>
    obtain ⟨front, last, hlast, hsplit⟩ := ih
    by_cases hc : c = '/'
    · refine ⟨[] :: front, last, hlast, ?_⟩
      intro suffix h
      simp [split, hc, hsplit suffix h]
    · cases front with
      | nil =>
        refine ⟨[], c :: last, by simp [Ne.symm hc, hlast], ?_⟩
        intro suffix h
        simp [split, hc, hsplit suffix h]
      | cons first front =>
        refine ⟨(c :: first) :: front, last, hlast, ?_⟩
        intro suffix h
        simp [split, hc, hsplit suffix h]

theorem exists_names_append (path : String) :
    ∃ front last, '/' ∉ last.toList ∧ ∀ suffix : String,
      '/' ∉ suffix.toList → names (path ++ suffix) = front ++ [last ++ suffix] := by
  obtain ⟨front, last, hlast, hsplit⟩ := exists_split_append path.toList
  refine ⟨front.map String.ofList, String.ofList last, by simpa using hlast, ?_⟩
  intro suffix h
  simp [names, String.toList_append, hsplit _ h, String.ofList_append]

theorem exists_target_join (start : List String) (dir name : String) :
    ∃ base last, '/' ∉ last.toList ∧ ∀ suffix : String, '/' ∉ suffix.toList →
      target start (join dir (name ++ suffix)) = step base (last ++ suffix) := by
  obtain ⟨front, last, hlast, hnames⟩ := exists_names_append name
  refine ⟨front.foldl step (if dir = "" ∧ isRooted name then [] else target start dir), last,
    hlast, ?_⟩
  intro suffix h
  rw [target_join, hnames suffix h, isRooted_append_suffix h, List.foldl_append]
  rfl

/-- An ending that makes an ordinary name of whatever it ends, because it is more than dots. -/
structure IsEnding (suffix : String) : Prop where
  no_slash : '/' ∉ suffix.toList
  not_dots : ∃ c ∈ suffix.toList, c ≠ '.'

theorem IsEnding.isName {suffix name : String} (h : IsEnding suffix) (hname : '/' ∉ name.toList) :
    IsName (name ++ suffix) := by
  obtain ⟨c, hc, hdot⟩ := h.not_dots
  have hmem : c ∈ (name ++ suffix).toList := by
    rw [String.toList_append]
    exact List.mem_append_right _ hc
  constructor
  case nonempty =>
    intro he
    simp [he] at hmem
  case not_dot =>
    intro he
    simp [he, hdot] at hmem
  case not_dots =>
    intro he
    simp [he, hdot] at hmem
  case no_slash =>
    rw [String.toList_append, List.mem_append]
    exact not_or.2 ⟨hname, h.no_slash⟩

/-- Paths that differ in such an ending lead to different places, also where the other name ends in
dots and leads back. -/
theorem IsEnding.target_join_ne {suffix other : String} (h : IsEnding suffix)
    (hother : '/' ∉ other.toList) (hne : other ≠ suffix) (start : List String) (dir name : String) :
    target start (join dir (name ++ suffix)) ≠ target start (join dir (name ++ other)) := by
  obtain ⟨base, last, hlast, htarget⟩ := exists_target_join start dir name
  rw [htarget suffix h.no_slash, htarget other hother, step_name (h.isName hlast)]
  intro heq
  exact hne ((String.append_right_inj last).1 (eq_of_step_eq_concat heq.symm))

end Path

namespace Node

theorem eq_foldl_step_of_follow {root : Node} {place q : Place} {ns : List String}
    (h : root.follow place ns = .ok q) : q = ns.foldl Path.step place := by
  induction ns generalizing place with
  | nil => exact (Except.ok.inj h).symm
  | cons name ns ih =>
    rw [List.foldl_cons, Path.step]
    unfold follow at h
    split at h
    · cases h
    · cases h
    · split at h
      case isTrue hplain =>
        rw [if_pos hplain]
        exact ih h
      case isFalse hplain =>
        rw [if_neg hplain]
        split at h
        case isTrue hdots =>
          rw [if_pos hdots]
          exact ih h
        case isFalse hdots =>
          rw [if_neg hdots]
          exact ih h

theorem eq_target_of_locate {root : Node} {dir place : Place} {path : String}
    (h : root.locate dir path = .ok place) : place = Path.target dir path := by
  unfold locate at h
  split at h
  · cases h
  · exact eq_foldl_step_of_follow h

end Node

namespace Build

theorem nodup_targets (b : Build) (start : Place) : (b.paths.map (Path.target start)).Nodup := by
  have hasm : Path.IsEnding ".asm" := ⟨by decide, 'a', by decide, by decide⟩
  have hobj : Path.IsEnding ".o" := ⟨by decide, 'o', by decide, by decide⟩
  have hexe : b.exePath = Path.join b.directory (b.name ++ "") := by
    rw [String.append_empty, exePath]
  have hasmObj : Path.target start b.asmPath ≠ Path.target start b.objPath :=
    hasm.target_join_ne hobj.no_slash (by decide) start b.directory b.name
  have hasmExe : Path.target start b.asmPath ≠ Path.target start b.exePath :=
    hexe ▸ hasm.target_join_ne (by decide) (by decide) start b.directory b.name
  have hobjExe : Path.target start b.objPath ≠ Path.target start b.exePath :=
    hexe ▸ hobj.target_join_ne (by decide) (by decide) start b.directory b.name
  simp [paths, hasmObj, hasmExe, hobjExe]

/-- Whatever the directory and the name of a build, its assembly, its object file and its program
have three different paths. From no working directory of any file tree do two of them lead to the
same place. -/
theorem paths_never_meet (b : Build) :
    [b.asmPath, b.objPath, b.exePath].Nodup ∧
      ∀ (root : Node) (dir place : Place), [b.asmPath, b.objPath, b.exePath].Pairwise fun p q =>
        ¬ (root.locate dir p = .ok place ∧ root.locate dir q = .ok place) := by
  constructor
  · exact (b.nodup_targets []).of_map
  · intro root dir place
    apply (List.pairwise_map.1 (b.nodup_targets dir)).imp
    intro p q hne hmeet
    obtain ⟨hp, hq⟩ := hmeet
    exact hne ((Node.eq_target_of_locate hp).symm.trans (Node.eq_target_of_locate hq))

-- The program of the first build stands above the directory, the one of the second nowhere
example : ({ directory := "a/b/.", name := ".." } : Build).paths = ["a/b/...asm", "a/b/...o", "a"] ∧
    ({ directory := "", name := "" } : Build).paths = [".asm", ".o", ""] := by decide +kernel

end Build

end Reckon
