import Mathlib
import Reckon.Proofs.Preparing

namespace Reckon

namespace Path

theorem split_append (cs rest : List Char) :
    split (cs ++ '/' :: rest) = split cs ++ split rest := by
  induction cs with
  | nil => rfl
  | cons c cs ih =>
    simp only [List.cons_append, split, ih]
    split
    · rfl
    · cases hcs : split cs with
      | nil => exact absurd hcs (split_ne_nil cs)
      | cons first others => rfl

theorem names_slash (dir name : String) : names (dir ++ "/" ++ name) = names dir ++ names name := by
  simp [names, String.toList_append, split_append]

theorem walk_name {name : String} (h : IsName name) (rooted : Bool) (walked : List String) :
    walk rooted walked name = name :: walked := by
  simp [walk, h.nonempty, h.not_dot, h.not_dots]

theorem foldl_walk_names {ns : List String} (h : ∀ n ∈ ns, IsName n) (rooted : Bool)
    (walked : List String) : ns.foldl (walk rooted) walked = ns.reverse ++ walked := by
  induction ns generalizing walked with
  | nil => rfl
  | cons name ns ih =>
    obtain ⟨hname, hns⟩ := List.forall_mem_cons.1 h
    rw [List.foldl_cons, walk_name hname, ih hns, List.reverse_cons, List.append_assoc]
    rfl

theorem Straight.normal {path : String} {place : List String} (h : Straight path place) :
    normal true (names path) = place := by
  rw [h.text]
  cases place with
  | nil => rfl
  | cons name rest =>
    rw [names_render (List.cons_ne_nil _ _) fun n hn => (h.isName n hn).no_slash, Path.normal,
      List.foldl_cons, foldl_walk_names h.isName]
    simp [walk]

theorem Straight.join {dir : String} {place : List String} (h : Straight dir place) {name : String}
    (hname : IsName name) : Straight (join dir name) (place ++ [name]) := by
  have hplace : Path.normal true (names (dir ++ "/" ++ name)) = place ++ [name] := by
    have hsingle : names name = [name] := by simp [names, split_of_no_slash hname.no_slash]
    have hdir := congrArg List.reverse h.normal
    rw [Path.normal, List.reverse_reverse] at hdir
    rw [Path.normal, names_slash, hsingle, List.foldl_append, hdir, List.foldl_cons,
      walk_name hname]
    simp
  rw [← hplace]
  exact straight_join h.isRooted name

theorem straight_absolute {dir : String} (h : isRooted dir = true) (path : String) :
    ∃ place, Straight (absolute dir path) place := by
  unfold absolute
  split
  case isTrue hpath =>
    exact ⟨_, straight_clean hpath⟩
  · exact ⟨_, straight_join h path⟩

theorem IsName.append {name : String} (h : IsName name) {suffix : String}
    (hslash : '/' ∉ suffix.toList) (hlong : 2 < (name ++ suffix).length) :
    IsName (name ++ suffix) where
  nonempty he := by simp [he] at hlong
  not_dot he := by
    rw [he] at hlong
    exact absurd hlong (by decide)
  not_dots he := by
    rw [he] at hlong
    exact absurd hlong (by decide)
  no_slash hmem := by
    rw [String.toList_append, List.mem_append] at hmem
    exact hmem.elim h.no_slash hslash

end Path

namespace Node

open Reckon.Path (Straight)

theorem get?_makeBelow {root root' : Node} {place : Place} {names : List String}
    (hstart : root.get? place = none →
      ∃ parent name es, place = parent ++ [name] ∧ root.get? parent = some (.directory es))
    (h : root.makeBelow place names = .ok root') :
    ∃ es, root'.get? (place ++ names) = some (.directory es) := by
  have hmade (hnone : root.get? place = none) :
      (root.set (some (.directory [])) place).get? place = some (.directory []) := by
    obtain ⟨parent, name, es, rfl, hparent⟩ := hstart hnone
    exact get?_set_concat _ parent name root hparent
  induction names generalizing root place with
  | nil =>
    rw [List.append_nil]
    unfold makeBelow at h
    split at h
    · cases h
    case h_2 es hes =>
      cases h
      exact ⟨es, hes⟩
    case h_3 hnone =>
      cases h
      exact ⟨[], hmade hnone⟩
  | cons name names ih =>
    -- The place is a directory now, so that the next one has a parent.
    have hbelow {root : Node} {es : List (String × Node)}
        (hes : root.get? place = some (.directory es))
        (h : root.makeBelow (place ++ [name]) names = .ok root') :
        ∃ es, root'.get? (place ++ name :: names) = some (.directory es) := by
      rw [List.append_cons]
      have hstart (_ : root.get? (place ++ [name]) = none) :
          ∃ parent last es, place ++ [name] = parent ++ [last] ∧
            root.get? parent = some (.directory es) := ⟨place, name, es, rfl, hes⟩
      exact ih hstart h fun _ => get?_set_concat _ place name root hes
    unfold makeBelow at h
    split at h
    · cases h
    case h_2 es hes =>
      exact hbelow hes h
    case h_3 hnone =>
      exact hbelow (hmade hnone) h

theorem get?_set_none_directory {root : Node} {p q : Place} {es : List (String × Node)}
    (h : root.get? q = some (.directory es)) (hp : ¬ p <+: q) :
    ∃ es', (root.set none p).get? q = some (.directory es') := by
  induction p generalizing root q with
  | nil => exact absurd List.nil_prefix hp
  | cons name p ih =>
    cases root with
    | file => exact ⟨es, h⟩
    | directory entries =>
      cases q with
      | nil => cases p <;> exact ⟨_, rfl⟩
      | cons other q =>
        simp only [get?] at h
        split at h
        case h_1 n hn =>
          by_cases hname : other = name
          · subst hname
            cases p with
            | nil => exact absurd (List.prefix_append [other] q) hp
            | cons second p =>
              have hrest := ih h fun hpre => hp (List.cons_prefix_cons.2 ⟨rfl, hpre⟩)
              simpa [set, get?, hn] using hrest
          · refine ⟨es, ?_⟩
            cases p <;> simpa [set, get?, lookup_update_of_ne entries _ hname, hn] using h
        · cases h

section

variable {root root' : Node} {path : String} {place q : Place} {dir : Place}

/-- What is removed is a file, or a directory in which nothing stands. -/
theorem get?_below_removed (h : Straight path place) (hr : root.remove dir path = .ok root')
    {rest : Place} (hrest : rest ≠ []) : root.get? (place ++ rest) = none := by
  obtain ⟨name, rest, rfl⟩ := List.exists_cons_of_ne_nil hrest
  unfold remove at hr
  cases hq : root.locate dir path with
  | error reason => simp [hq] at hr
  | ok p =>
    have hp : p = place := by
      rw [locate_straight h] at hq
      split at hq
      · simpa using (follow_eq_ok h.isName hq).1
      · cases hq
    subst hp
    rw [get?_append]
    simp only [hq] at hr
    split at hr
    · cases hr
    case h_2 hfile =>
      rw [hfile]
      rfl
    case h_3 entries hentries =>
      have hempty : entries = [] := by grind
      rw [hentries, hempty]
      rfl

theorem get?_remove_directory (h : Straight path place) (hr : root.remove dir path = .ok root')
    {es : List (String × Node)} (hq : root.get? q = some (.directory es)) (hne : place ≠ q) :
    ∃ es', root'.get? q = some (.directory es') := by
  obtain ⟨rfl, -⟩ := at?_remove h hr
  apply get?_set_none_directory hq
  rintro ⟨rest, rfl⟩
  have hrest : rest ≠ [] := by
    rintro rfl
    exact hne (List.append_nil place).symm
  rw [get?_below_removed h hr hrest] at hq
  cases hq

end

end Node

namespace World

def HasDirectory (w : World) (path : String) : Prop :=
  ∃ es, w.files.at? w.directory path = some (.directory es)

variable {w w' : World} {d path : String}

theorem hasDirectory_iff {q : Place} (h : Path.Straight d q) :
    w.HasDirectory d ↔ w.files.isDirectory ∧ ∃ es, w.files.get? q = some (.directory es) := by
  unfold HasDirectory
  rw [Node.at?_straight h]
  cases w.files.isDirectory <;> simp

theorem Vacant.not_hasDirectory (h : w.Vacant d) : ¬ w.HasDirectory d := by
  rintro ⟨es, hes⟩
  cases h.symm.trans hes

theorem run_discard_cases (path : String) (w : World) :
    ((Host.discard (m := StateM World) path).run.run w).2 = w ∨
      ∃ root, w.files.remove w.directory path = .ok root ∧
        ((Host.discard (m := StateM World) path).run.run w).2 = { w with files := root } := by
  have hlift : (ExceptT.lift (ε := Fault) (Host.remove (m := StateM World) path)).run.run w =
      (.ok (w.store (w.files.remove w.directory path)).1,
        (w.store (w.files.remove w.directory path)).2) := rfl
  unfold Host.discard
  rw [run_bind_ok hlift]
  cases hr : w.files.remove w.directory path with
  | ok root => exact .inr ⟨root, rfl, rfl⟩
  | error fault =>
    left
    simp only [store]
    split <;> rfl

theorem HasDirectory.discard {place q : Place} (h : w.HasDirectory d) (hd : Path.Straight d q)
    (hpath : Path.Straight path place) (hne : path ≠ d) :
    ((Host.discard (m := StateM World) path).run.run w).2.HasDirectory d := by
  have hplace : place ≠ q := by
    rintro rfl
    exact hne (hpath.text.trans hd.text.symm)
  rw [hasDirectory_iff hd] at h ⊢
  obtain ⟨hroot, es, hes⟩ := h
  rcases run_discard_cases path w with hsame | ⟨root, hr, hafter⟩
  · rw [hsame]
    exact ⟨hroot, es, hes⟩
  · rw [hafter]
    refine ⟨?_, Node.get?_remove_directory hpath hr hes hplace⟩
    obtain ⟨rfl, -⟩ := Node.at?_remove hpath hr
    rw [Node.isDirectory_set]
    exact hroot

/-- A directory is left where only other paths are discarded. -/
theorem HasDirectory.discards {ps : List String} {q : Place} (h : w.HasDirectory d)
    (hd : Path.Straight d q) (hps : ∀ path ∈ ps, ∃ place, Path.Straight path place) (hne : d ∉ ps) :
    ((ps.forM (Host.discard (m := StateM World))).run.run w).2.HasDirectory d := by
  induction ps generalizing w with
  | nil => exact h
  | cons path ps ih =>
    obtain ⟨⟨place, hpath⟩, hps⟩ := List.forall_mem_cons.1 hps
    obtain ⟨hfirst, hne⟩ := not_or.1 (mt List.mem_cons.2 hne)
    have hkeep := h.discard hd hpath (Ne.symm hfirst)
    rcases hrun : (Host.discard (m := StateM World) path).run.run w with ⟨r, w₁⟩
    rw [hrun] at hkeep
    have hcons : (path :: ps).forM (Host.discard (m := StateM World)) =
        Host.discard path >>= fun _ => ps.forM (Host.discard (m := StateM World)) := rfl
    rw [hcons]
    cases r with
    | error fault =>
      rw [run_bind_error hrun]
      exact hkeep
    | ok u =>
      rw [run_bind_ok hrun]
      exact ih hkeep hps hne

theorem hasDirectory_of_makeDirectories {q : Place} {root : Node} (hd : Path.Straight d q)
    (h : w.files.makeDirectories d = .ok root) :
    ({ w with files := root } : World).HasDirectory d := by
  rw [Node.makeDirectories, hd.normal] at h
  obtain ⟨es, hes⟩ := Node.get?_makeBelow (fun hnone => by cases hnone) h
  rw [hasDirectory_iff hd]
  refine ⟨?_, es, hes⟩
  cases root with
  | directory => rfl
  | file =>
    cases q <;> cases hes

theorem hasDirectory_of_ensureDirectory {dir : String}
    (h : (Host.ensureDirectory (m := StateM World) dir).run.run w = (.ok d, w')) :
    d = Path.absolute (Path.render true w.directory) dir ∧ w'.HasDirectory d := by
  obtain ⟨r, hrun, habs⟩ := run_absolute dir w
  unfold Host.ensureDirectory at h
  cases r with
  | error fault =>
    rw [run_bind_error hrun] at h
    cases h
  | ok path =>
    obtain ⟨q, hstraight⟩ :=
      Path.straight_absolute (Path.isRooted_render w.directory) dir
    rw [← habs path rfl] at hstraight
    rw [run_bind_ok hrun] at h
    have hmake : (ExceptT.mk (Host.makeDirectories (m := StateM World) path)).run.run w =
        w.store (w.files.makeDirectories path) := rfl
    cases hmade : w.files.makeDirectories path with
    | error fault =>
      rw [hmade, store] at hmake
      rw [run_bind_error hmake] at h
      cases h
    | ok root =>
      rw [hmade, store] at hmake
      rw [run_bind_ok hmake] at h
      cases h
      exact ⟨habs _ rfl, hasDirectory_of_makeDirectories hstraight hmade⟩

end World

namespace Build

variable {b b' : Build} {w w' : World}

theorem prepare_eq_ok (h : (b.prepare (m := StateM World)).run w = ((.ok (), b'), w')) :
    ∃ w₁, (Host.ensureDirectory (m := StateM World) b.directory).run.run w =
        (.ok b'.directory, w₁) ∧
      ((b'.paths.forM (Host.discard (m := StateM World))).run.run w₁).2 = w' := by
  rcases hmade : (Host.ensureDirectory (m := StateM World) b.directory).run.run w with ⟨r, w₁⟩
  unfold prepare at h
  rw [StateT.run_bind, run_during, hmade] at h
  cases r with
  | error fault => cases h
  | ok d =>
    have hclear := run_during .prepare (clear (m := StateM World) { b with directory := d }) w₁
    change StateT.run (do
      return (← (during .prepare (clear { b with directory := d })).run,
        { b with directory := d })) w₁ = _ at h
    rw [StateT.run_bind, hclear, clear_eq] at h
    have hbuild : { b with directory := d } = b' := congrArg (fun r => r.1.2) h
    have hworld := congrArg Prod.snd h
    subst hbuild
    exact ⟨w₁, rfl, hworld⟩

theorem directory_not_mem_paths {place : Place} (hd : Path.Straight b.directory place)
    (hname : Path.IsName b.name) : b.directory ∉ b.paths := by
  have hne {name : String} (h : Path.IsName name) : b.directory ≠ Path.join b.directory name := by
    intro heq
    have hnames := congrArg (fun p => Path.normal true (Path.names p)) heq
    have hsame := hd.normal.symm.trans (hnames.trans (hd.join h).normal)
    simpa using congrArg List.length hsame
  have hlong : 0 < b.name.length := Nat.pos_of_ne_zero fun h => hname.nonempty (by simpa using h)
  have hasm : ".asm".length = 4 := by decide
  have hobj : ".o".length = 2 := by decide
  simp only [paths, List.mem_cons, List.not_mem_nil, or_false, not_or]
  refine ⟨hne (hname.append (by decide) ?_), hne (hname.append (by decide) ?_), hne hname⟩
  · rw [String.length_append]
    omega
  · rw [String.length_append]
    omega

/-- A preparation that succeeds takes the absolute path of the directory and leaves nothing at the
paths of the build. The directory is there unless one of these paths leads to it; none does if the
name of the build is an ordinary one. -/
theorem prepare_leaves_directory_unless_cleared
    (h : (b.prepare (m := StateM World)).run w = ((.ok (), b'), w')) :
    b' = b.placed w.directory ∧ Path.isRooted b'.directory = true ∧
      (∀ path ∈ b'.paths, w'.Vacant path) ∧
      (w'.HasDirectory b'.directory ↔ b'.directory ∉ b'.paths) ∧
      (Path.IsName b.name → w'.HasDirectory b'.directory) := by
  obtain ⟨r, c, v, hrun, -, -, hok⟩ := run_prepare b w
  cases hrun.symm.trans h
  obtain ⟨hplaced, hvacant⟩ := hok rfl
  obtain ⟨w₁, hmade, hclear⟩ := prepare_eq_ok h
  obtain ⟨habs, hdirectory⟩ := World.hasDirectory_of_ensureDirectory hmade
  obtain ⟨place, hd⟩ := Path.straight_absolute (Path.isRooted_render w.directory) b.directory
  rw [← habs] at hd
  have hleft (hne : b'.directory ∉ b'.paths) : w'.HasDirectory b'.directory := by
    rw [← hclear]
    exact hdirectory.discards hd (fun path => straight_of_mem_paths hd.isRooted) hne
  have hname : b'.name = b.name := by rw [hplaced, placed]
  refine ⟨hplaced, hd.isRooted, hvacant, ⟨fun hdir hmem => ?_, hleft⟩, fun hordinary => ?_⟩
  · exact (hvacant _ hmem).not_hasDirectory hdir
  · exact hleft (directory_not_mem_paths hd (hname ▸ hordinary))

/-- Without a name the program would stand at the directory itself, which was just made and is
empty, and so is removed. A program of an earlier build is removed from a directory that stays. -/
theorem prepare_leaves_directory_unless_cleared_unnamed :
    let w : World := {
      files := .directory [("o", .directory [("p", .file [] true)])]
      directory := []
      tools := .standard }
    (∃ b' w', (({ directory := "x", name := "" } : Build).prepare (m := StateM World)).run w =
        ((.ok (), b'), w') ∧ b'.directory = b'.exePath ∧ ¬ w'.HasDirectory b'.directory) ∧
    ∃ b' w', (({ directory := "o", name := "p" } : Build).prepare (m := StateM World)).run w =
        ((.ok (), b'), w') ∧ w'.HasDirectory b'.directory ∧ w'.Vacant b'.exePath := by
  intro w
  have hunnamed : ((({ directory := "x", name := "" } : Build).prepare (m := StateM World)).run
      w).1.1 = .ok () := by cbv
  have hnamed : ((({ directory := "o", name := "p" } : Build).prepare (m := StateM World)).run
      w).1.1 = .ok () := by cbv
  have hname : Path.IsName "p" := ⟨by decide, by decide, by decide, by decide⟩
  constructor
  · rcases hrun : (({ directory := "x", name := "" } : Build).prepare (m := StateM World)).run w
      with ⟨⟨r, b'⟩, w'⟩
    rw [hrun] at hunnamed
    cases hunnamed
    obtain ⟨rfl, -, -, hgone, -⟩ := prepare_leaves_directory_unless_cleared hrun
    have hexe : (placed { directory := "x", name := "" } w.directory).directory =
        (placed { directory := "x", name := "" } w.directory).exePath := by cbv
    refine ⟨_, _, rfl, hexe, fun h => hgone.1 h ?_⟩
    rw [hexe]
    simp [paths]
  · rcases hrun : (({ directory := "o", name := "p" } : Build).prepare (m := StateM World)).run w
      with ⟨⟨r, b'⟩, w'⟩
    rw [hrun] at hnamed
    cases hnamed
    obtain ⟨-, -, hvacant, -, hthere⟩ := prepare_leaves_directory_unless_cleared hrun
    exact ⟨_, _, rfl, hthere hname, hvacant _ (by simp [paths])⟩

end Build

end Reckon
