import Reckon.Host.Files

namespace Reckon

namespace Path

structure IsName (name : String) : Prop where
  nonempty : name ≠ ""
  not_dot : name ≠ "."
  not_dots : name ≠ ".."
  no_slash : '/' ∉ name.toList

theorem split_ne_nil (cs : List Char) : split cs ≠ [] := by
  cases cs with
  | nil => simp [split]
  | cons c cs =>
    simp only [split]
    split
    · simp
    · split <;> simp

theorem no_slash_of_mem_split {cs name : List Char} (h : name ∈ split cs) : '/' ∉ name := by
  induction cs generalizing name with
  | nil =>
    rw [split, List.mem_singleton] at h
    simp [h]
  | cons c cs ih =>
    simp only [split] at h
    split at h
    · obtain rfl | h := List.mem_cons.1 h
      · simp
      · exact ih h
    case isFalse hc =>
      split at h
      case h_1 hnil =>
        exact absurd hnil (split_ne_nil cs)
      case h_2 first others hsplit =>
        have hfirst : '/' ∉ first := ih (by simp [hsplit])
        obtain rfl | h := List.mem_cons.1 h
        · simpa [Ne.symm hc] using hfirst
        · exact ih (by simp [hsplit, h])

theorem split_of_no_slash {cs : List Char} (h : '/' ∉ cs) : split cs = [cs] := by
  induction cs with
  | nil => rfl
  | cons c cs ih =>
    obtain ⟨hc, hcs⟩ := not_or.1 (mt List.mem_cons.2 h)
    simp [split, Ne.symm hc, ih hcs]

theorem split_append_slash {cs : List Char} (rest : List Char) (h : '/' ∉ cs) :
    split (cs ++ '/' :: rest) = cs :: split rest := by
  induction cs with
  | nil => rfl
  | cons c cs ih =>
    obtain ⟨hc, hcs⟩ := not_or.1 (mt List.mem_cons.2 h)
    simp [split, Ne.symm hc, ih hcs]

theorem no_slash_of_mem_names {path name : String} (h : name ∈ names path) :
    '/' ∉ name.toList := by
  obtain ⟨cs, hcs, rfl⟩ := List.mem_map.1 h
  simpa using no_slash_of_mem_split hcs

theorem split_intercalate {ns : List (List Char)} (hns : ns ≠ []) (h : ∀ n ∈ ns, '/' ∉ n) :
    split (['/'].intercalate ns) = ns := by
  induction ns with
  | nil => exact absurd rfl hns
  | cons n ns ih =>
    have hn : '/' ∉ n := h n (by simp)
    cases ns with
    | nil => simpa using split_of_no_slash hn
    | cons n' ns =>
      have hrest := ih (by simp) fun m hm => h m (by simp [hm])
      rw [List.intercalate_cons_cons, List.append_assoc, List.singleton_append,
        split_append_slash _ hn, hrest]

theorem names_render {ns : List String} (hns : ns ≠ []) (h : ∀ n ∈ ns, '/' ∉ n.toList) :
    names (render true ns) = "" :: ns := by
  have hsplit : split (['/'].intercalate (ns.map String.toList)) = ns.map String.toList := by
    refine split_intercalate (by simpa using hns) fun n hn => ?_
    obtain ⟨m, hm, rfl⟩ := List.mem_map.1 hn
    exact h m hm
  simp [names, render, String.toList_append, String.toList_intercalate, split, hsplit]

theorem isRooted_render (ns : List String) : isRooted (render true ns) = true := by
  simp [isRooted, render, String.toList_append]

theorem isRooted_append {path : String} (h : isRooted path = true) (rest : String) :
    isRooted (path ++ rest) = true := by
  simp only [isRooted, beq_iff_eq, String.toList_append] at h ⊢
  rw [List.head?_append, h]
  rfl

theorem walk_isName {walked : List String} {name : String} (hw : ∀ n ∈ walked, IsName n)
    (hname : '/' ∉ name.toList) : ∀ n ∈ walk true walked name, IsName n := by
  intro n hn
  unfold walk at hn
  split at hn
  · exact hw n hn
  case isFalse hplain =>
    split at hn
    · cases walked with
      | nil => simp at hn
      | cons last rest =>
        -- no name walked so far is a pair of dots, so the last one is dropped
        have hlast : last ≠ ".." := (hw last (by simp)).not_dots
        simp only [hlast, ↓reduceIte] at hn
        exact hw n (by simp [hn])
    case isFalse hdots =>
      obtain rfl | hn := List.mem_cons.1 hn
      · exact ⟨fun h => hplain (.inl h), fun h => hplain (.inr h), hdots, hname⟩
      · exact hw n hn

theorem foldl_walk_isName {ns walked : List String} (hw : ∀ n ∈ walked, IsName n)
    (hns : ∀ n ∈ ns, '/' ∉ n.toList) : ∀ n ∈ ns.foldl (walk true) walked, IsName n := by
  induction ns generalizing walked with
  | nil => exact hw
  | cons name ns ih =>
    exact ih (walk_isName hw (hns name (by simp))) fun n hn => hns n (by simp [hn])

/-- A path that goes straight down from the root to a place. -/
structure Straight (path : String) (place : List String) : Prop where
  text : path = render true place
  isName : ∀ n ∈ place, IsName n

theorem straight_clean {path : String} (h : isRooted path = true) :
    Straight (clean path) (normal true (names path)) := by
  refine ⟨by rw [clean, h], fun n hn => ?_⟩
  have hslash : ∀ m ∈ names path, '/' ∉ m.toList := fun m => no_slash_of_mem_names
  exact foldl_walk_isName (by simp) hslash n (List.mem_reverse.1 hn)

theorem straight_join {dir : String} (h : isRooted dir = true) (name : String) :
    Straight (join dir name) (normal true (names (dir ++ "/" ++ name))) := by
  have hdir : dir ≠ "" := by
    rintro rfl
    simp [isRooted] at h
  rw [join, if_neg hdir]
  exact straight_clean (isRooted_append (isRooted_append h _) _)

theorem Straight.isRooted {path : String} {place : List String} (h : Straight path place) :
    isRooted path = true := h.text ▸ isRooted_render place

theorem isRooted_absolute {dir : String} (h : isRooted dir = true) (path : String) :
    isRooted (absolute dir path) = true := by
  unfold absolute
  split
  case isTrue hpath =>
    exact (straight_clean hpath).isRooted
  · exact (straight_join h path).isRooted

end Path

namespace Node

open Reckon.Path (IsName Straight)

def isDirectory : Node → Bool
  | .file .. => false
  | .directory _ => true

def at? (root : Node) (dir : Place) (path : String) : Option Node :=
  match root.locate dir path with
  | .ok place => root.get? place
  | .error _ => none

theorem get?_append (root : Node) (p q : Place) :
    root.get? (p ++ q) = (root.get? p).bind (·.get? q) := by
  induction p generalizing root with
  | nil => simp [get?]
  | cons name p ih =>
    cases root with
    | file => simp [get?]
    | directory es =>
      simp only [List.cons_append, get?]
      cases es.lookup name with
      | none => rfl
      | some n => exact ih n

@[simp] theorem isDirectory_set (new : Option Node) (p : Place) (root : Node) :
    (root.set new p).isDirectory = root.isDirectory := by
  cases p with
  | nil => rfl
  | cons name p =>
    cases root with
    | file => rfl
    | directory es => cases p <;> rfl

theorem get?_set_none {root : Node} {q : Place} (p : Place) (h : root.get? q = none) :
    (root.set none p).get? q = none := by
  induction p generalizing root q with
  | nil => exact h
  | cons name p ih =>
    cases root with
    | file => exact h
    | directory es =>
      cases q with
      | nil => simp [get?] at h
      | cons other q =>
        simp only [get?] at h
        by_cases hname : other = name
        · subst hname
          cases p with
          | nil => simp [set, get?]
          | cons second p =>
            cases hn : es.lookup other with
            | none => simp [set, get?, hn]
            | some n =>
              have hrest : n.get? q = none := by simpa [hn] using h
              simpa [set, get?, hn] using ih hrest
        · cases p with
          | nil => simpa [set, get?, lookup_update_of_ne es _ hname] using h
          | cons second p => simpa [set, get?, lookup_update_of_ne es _ hname] using h

theorem follow_eq_ok {root : Node} {place q : Place} {ns : List String} (hns : ∀ n ∈ ns, IsName n)
    (h : root.follow place ns = .ok q) :
    q = place ++ ns ∧
      (ns ≠ [] → ∃ es, root.get? (place ++ ns.dropLast) = some (.directory es)) := by
  induction ns generalizing place with
  | nil =>
    cases h
    simp
  | cons name ns ih =>
    have hname := hns name (by simp)
    simp only [follow, hname.nonempty, hname.not_dot, hname.not_dots, or_self, ↓reduceIte] at h
    split at h
    · cases h
    · cases h
    case h_3 es hes =>
      obtain ⟨hq, hparent⟩ := ih (fun n hn => hns n (by simp [hn])) h
      refine ⟨by simpa using hq, fun _ => ?_⟩
      cases ns with
      | nil => exact ⟨es, by simpa using hes⟩
      | cons second ns => simpa using hparent (by simp)

theorem get?_of_follow_error {root : Node} {place : Place} {ns : List String} {reason : Reason}
    (hns : ∀ n ∈ ns, IsName n) (h : root.follow place ns = .error reason) :
    root.get? (place ++ ns) = none := by
  induction ns generalizing place with
  | nil => cases h
  | cons name ns ih =>
    have hname := hns name (by simp)
    simp only [follow, hname.nonempty, hname.not_dot, hname.not_dots, or_self, ↓reduceIte] at h
    split at h
    case h_1 hnone =>
      simp [get?_append, hnone]
    case h_2 hfile =>
      simp [get?_append, hfile, get?]
    · simpa using ih (fun n hn => hns n (by simp [hn])) h

section

variable {root root' : Node} {path : String} {place : Place}

/-- The empty name in front of the first slash asks for a directory at the root, and for no more. -/
theorem locate_straight (h : Straight path place) (dir : Place) :
    root.locate dir path =
      if root.isDirectory then root.follow [] place else .error .notDirectory := by
  have hne : path ≠ "" := by
    rintro rfl
    simpa [Path.isRooted] using h.isRooted
  rw [locate, if_neg hne, h.isRooted, h.text]
  cases root with
  | file =>
    cases place with
    | nil => rfl
    | cons name rest =>
      rw [Path.names_render (by simp) fun n hn => (h.isName n hn).no_slash]
      rfl
  | directory es =>
    cases place with
    | nil => rfl
    | cons name rest =>
      rw [Path.names_render (by simp) fun n hn => (h.isName n hn).no_slash]
      rfl

theorem at?_straight (h : Straight path place) (dir : Place) :
    root.at? dir path = if root.isDirectory then root.get? place else none := by
  rw [at?, locate_straight h]
  cases root.isDirectory with
  | false => rfl
  | true =>
    cases hf : root.follow [] place with
    | error reason => simpa [hf] using (get?_of_follow_error h.isName hf).symm
    | ok q =>
      obtain ⟨rfl, -⟩ := follow_eq_ok h.isName hf
      simp

theorem at?_set_none (h : Straight path place) {dir : Place} (p : Place)
    (hnone : root.at? dir path = none) : (root.set none p).at? dir path = none := by
  rw [at?_straight h] at hnone ⊢
  rw [isDirectory_set]
  split
  case isTrue hd =>
    rw [if_pos hd] at hnone
    exact get?_set_none p hnone
  · rfl

theorem at?_set_self (h : Straight path place) {dir q : Place}
    (hq : root.locate dir path = .ok q) (hplace : place ≠ []) (new : Option Node) :
    q = place ∧ (root.set new place).at? dir path = new := by
  rw [locate_straight h] at hq
  split at hq
  case isTrue hd =>
    obtain ⟨hq, hparent⟩ := follow_eq_ok h.isName hq
    obtain ⟨es, hes⟩ := hparent hplace
    have hget := get?_set_concat new place.dropLast (place.getLast hplace) root hes
    rw [List.dropLast_concat_getLast] at hget
    exact ⟨hq, by rw [at?_straight h, isDirectory_set, if_pos hd, hget]⟩
  · cases hq

theorem directory_of_locate_root (h : Straight path []) {dir q : Place}
    (hq : root.locate dir path = .ok q) : q = [] ∧ ∃ es, root = .directory es := by
  rw [locate_straight h] at hq
  cases root with
  | file => cases hq
  | directory es =>
    cases hq
    exact ⟨rfl, es, rfl⟩

theorem at?_remove (h : Straight path place) {dir : Place}
    (hr : root.remove dir path = .ok root') :
    root' = root.set none place ∧ root'.at? dir path = none := by
  unfold remove at hr
  cases hq : root.locate dir path with
  | error reason => simp [hq] at hr
  | ok q =>
    have hplace : place ≠ [] := by
      rintro rfl
      obtain ⟨rfl, es, rfl⟩ := directory_of_locate_root h hq
      have hlast : lastName? path = none := by rw [h.text]; rfl
      simp [hq, get?, hlast] at hr
    obtain ⟨rfl, hnone⟩ := at?_set_self h hq hplace none
    have hroot : root' = root.set none q := by
      simp only [hq] at hr
      split at hr
      · cases hr
      · exact (Except.ok.inj hr).symm
      · grind
    exact ⟨hroot, hroot ▸ hnone⟩

theorem at?_of_remove_noEntry {dir : Place} {op : Action} {text : String}
    (hr : root.remove dir path = .error (.file op text .noEntry)) : root.at? dir path = none := by
  unfold remove at hr
  unfold at?
  grind

theorem at?_write (h : Straight path place) {dir : Place} {data : Bytes}
    (hw : root.write dir path data = .ok root') :
    ∃ x, root'.at? dir path = some (.file data x) := by
  unfold write at hw
  cases hq : root.locate dir path with
  | error reason => simp [hq] at hw
  | ok q =>
    have hplace : place ≠ [] := by
      rintro rfl
      obtain ⟨rfl, es, rfl⟩ := directory_of_locate_root h hq
      simp [hq, get?] at hw
    obtain ⟨rfl, -⟩ := at?_set_self h hq hplace none
    have hroot : ∃ x, root' = root.set (some (.file data x)) q := by
      simp only [hq] at hw
      split at hw
      · exact ⟨false, (Except.ok.inj hw).symm⟩
      · cases hw
      · exact ⟨_, (Except.ok.inj hw).symm⟩
    obtain ⟨x, rfl⟩ := hroot
    exact ⟨x, (at?_set_self h hq hplace _).2⟩

end

end Node

end Reckon
