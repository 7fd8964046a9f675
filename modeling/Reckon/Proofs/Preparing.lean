import Reckon.Build
import Reckon.Host.World
import Reckon.Proofs.Basic
import Reckon.Proofs.FileTree

namespace Reckon

namespace World

def Refiled (w w' : World) : Prop := ∃ files, w' = { w with files }

section

variable {w w' w'' : World}

theorem Refiled.refl (w : World) : w.Refiled w := ⟨w.files, rfl⟩

theorem Refiled.trans (h : w.Refiled w') (h' : w'.Refiled w'') : w.Refiled w'' := by
  obtain ⟨_, rfl⟩ := h
  obtain ⟨files, rfl⟩ := h'
  exact ⟨files, rfl⟩

theorem Refiled.launched (h : w.Refiled w') : w'.launched = w.launched := by
  obtain ⟨_, rfl⟩ := h
  rfl

theorem Refiled.directory (h : w.Refiled w') : w'.directory = w.directory := by
  obtain ⟨_, rfl⟩ := h
  rfl

theorem refiled_store (w : World) (r : Except Fault Node) : w.Refiled (w.store r).2 := by
  cases r with
  | ok files => exact ⟨files, rfl⟩
  | error fault => exact .refl w

def Vacant (w : World) (path : String) : Prop := w.files.at? w.directory path = none

theorem run_discard {path : String} {place : Place} (h : Path.Straight path place) (w : World) :
    ∃ r p, (Host.discard (m := StateM World) path).run.run w =
        (r, { w with files := w.files.set none p }) ∧
      (r = .ok () → Vacant { w with files := w.files.set none p } path) := by
  have hlift : (ExceptT.lift (ε := Fault) (Host.remove (m := StateM World) path)).run.run w =
      (.ok (w.store (w.files.remove w.directory path)).1,
        (w.store (w.files.remove w.directory path)).2) := rfl
  unfold Host.discard
  rw [run_bind_ok hlift]
  cases hr : w.files.remove w.directory path with
  | ok root =>
    obtain ⟨rfl, hnone⟩ := Node.at?_remove h hr
    exact ⟨.ok (), place, rfl, fun _ => hnone⟩
  | error fault =>
    simp only [store]
    split
    · contradiction
    case h_2 hfault =>
      cases hfault
      exact ⟨.ok (), [], rfl, fun _ => Node.at?_of_remove_noEntry hr⟩
    case h_3 hfault =>
      cases hfault
      exact ⟨.error fault, [], rfl, by simp⟩

/-- Paths are discarded one after another. None of them leads to anything in the end, and neither
does any other one that did not. -/
theorem run_discards {ps : List String} (h : ∀ path ∈ ps, ∃ place, Path.Straight path place)
    (w : World) :
    ∃ r w', (ps.forM (Host.discard (m := StateM World))).run.run w = (r, w') ∧ w.Refiled w' ∧
      (∀ path place, Path.Straight path place → w.Vacant path → w'.Vacant path) ∧
      (r = .ok () → ∀ path ∈ ps, w'.Vacant path) := by
  induction ps generalizing w with
  | nil => exact ⟨.ok (), w, rfl, .refl w, fun _ _ _ hv => hv, by simp⟩
  | cons path ps ih =>
    obtain ⟨place, hpath⟩ := h path (by simp)
    obtain ⟨r₁, p, hrun, hvacant⟩ := run_discard hpath w
    have hfirst : w.Refiled { w with files := w.files.set none p } := ⟨_, rfl⟩
    have hkeep : ∀ other place, Path.Straight other place → w.Vacant other →
        Vacant { w with files := w.files.set none p } other :=
      fun other place hother hv => Node.at?_set_none hother p hv
    cases r₁ with
    | error fault => exact ⟨.error fault, _, run_bind_error hrun, hfirst, hkeep, by simp⟩
    | ok u =>
      obtain ⟨r, w', hrest, hrefiled, hkeep', hvacant'⟩ :=
        ih (fun other hother => h other (by simp [hother])) { w with files := w.files.set none p }
      refine ⟨r, w', ?_, hfirst.trans hrefiled, ?_, ?_⟩
      · rw [← hrest]
        exact run_bind_ok hrun
      · intro other place hother hv
        exact hkeep' other place hother (hkeep other place hother hv)
      · intro hr other hother
        obtain rfl | hother := List.mem_cons.1 hother
        · exact hkeep' other place hpath (hvacant rfl)
        · exact hvacant' hr other hother

theorem run_absolute (path : String) (w : World) :
    ∃ r, (Host.absolute (m := StateM World) path).run.run w = (r, w) ∧
      ∀ d, r = .ok d → d = Path.absolute (Path.render true w.directory) path := by
  unfold Host.absolute
  by_cases hpath : Path.isRooted path = true
  · rw [if_pos hpath]
    refine ⟨.ok (Path.clean path), rfl, fun d hd => ?_⟩
    rw [Path.absolute, if_pos hpath]
    exact (Except.ok.inj hd).symm
  · rw [if_neg hpath]
    cases hdir : w.files.get? w.directory with
    | none =>
      have hrun : (ExceptT.mk (Host.workingDirectory (m := StateM World))).run.run w =
          (.error .noWorkingDirectory, w) := by
        simp [Host.workingDirectory, ExceptT.mk, ExceptT.run, StateT.run, hdir]
      exact ⟨.error .noWorkingDirectory, run_bind_error hrun, by simp⟩
    | some n =>
      have hrun : (ExceptT.mk (Host.workingDirectory (m := StateM World))).run.run w =
          (.ok (Path.render true w.directory), w) := by
        simp [Host.workingDirectory, ExceptT.mk, ExceptT.run, StateT.run, hdir]
      refine ⟨.ok (Path.join (Path.render true w.directory) path), run_bind_ok hrun, fun d hd => ?_⟩
      rw [Path.absolute, if_neg hpath]
      exact (Except.ok.inj hd).symm

theorem run_ensureDirectory (dir : String) (w : World) :
    ∃ r w', (Host.ensureDirectory (m := StateM World) dir).run.run w = (r, w') ∧ w.Refiled w' ∧
      ∀ d, r = .ok d → d = Path.absolute (Path.render true w.directory) dir := by
  obtain ⟨r, hrun, habs⟩ := run_absolute dir w
  unfold Host.ensureDirectory
  cases r with
  | error fault => exact ⟨.error fault, w, run_bind_error hrun, .refl w, by simp⟩
  | ok d =>
    rw [run_bind_ok hrun]
    have hmake : (ExceptT.mk (Host.makeDirectories (m := StateM World) d)).run.run w =
        w.store (w.files.makeDirectories d) := rfl
    have hrefiled := refiled_store w (w.files.makeDirectories d)
    cases hstore : w.store (w.files.makeDirectories d) with
    | mk made w' =>
      rw [hstore] at hmake hrefiled
      cases made with
      | error fault => exact ⟨.error fault, w', run_bind_error hmake, hrefiled, by simp⟩
      | ok u => exact ⟨.ok d, w', run_bind_ok hmake, hrefiled, habs⟩

end

end World

namespace Build

def paths (b : Build) : List String := [b.asmPath, b.objPath, b.exePath]

def placed (b : Build) (dir : Place) : Build :=
  { b with directory := Path.absolute (Path.render true dir) b.directory }

theorem isRooted_placed (b : Build) (dir : Place) :
    Path.isRooted (b.placed dir).directory = true :=
  Path.isRooted_absolute (Path.isRooted_render dir) b.directory

theorem straight_of_mem_paths {b : Build} (hb : Path.isRooted b.directory = true) {path : String}
    (h : path ∈ b.paths) : ∃ place, Path.Straight path place := by
  simp only [paths, List.mem_cons, List.not_mem_nil, or_false] at h
  obtain rfl | rfl | rfl := h
  · exact ⟨_, Path.straight_join hb _⟩
  · exact ⟨_, Path.straight_join hb _⟩
  · exact ⟨_, Path.straight_join hb _⟩

theorem clear_eq (b : Build) :
    b.clear (m := StateM World) = b.paths.forM (Host.discard (m := StateM World)) := by
  simp [clear, paths]

theorem run_during {α : Type} (s : Stage) (x : ExceptT Fault (StateM World) α) (w : World) :
    (during s x).run.run w =
      ((x.run.run w).1.mapError fun fault => ⟨s, fault⟩, (x.run.run w).2) := rfl

/-- What a preparation yields: its outcome, the build that goes on, and the system after it. -/
theorem run_prepare (b : Build) (w : World) :
    ∃ r b' w', (b.prepare (m := StateM World)).run w = ((r, b'), w') ∧ w.Refiled w' ∧
      (∀ e, r = .error e → e.stage = .prepare) ∧
      (r = .ok () → b' = b.placed w.directory ∧ ∀ path ∈ b'.paths, w'.Vacant path) := by
  obtain ⟨made, w₁, hmade, hfirst, habs⟩ := World.run_ensureDirectory b.directory w
  unfold prepare
  cases made with
  | error fault =>
    refine ⟨.error ⟨.prepare, fault⟩, b, w₁, ?_, hfirst, ?_, by simp⟩
    · rw [StateT.run_bind, run_during, hmade]
      rfl
    · rintro e ⟨⟩
      rfl
  | ok d =>
    have hplaced : { b with directory := d } = b.placed w.directory := by
      rw [placed, habs d rfl]
    have hrooted : Path.isRooted (b.placed w.directory).directory = true := isRooted_placed b _
    obtain ⟨r, w', hclear, hrest, -, hvacant⟩ :=
      World.run_discards (fun path => straight_of_mem_paths hrooted) w₁
    rw [← clear_eq] at hclear
    refine ⟨r.mapError fun fault => ⟨.prepare, fault⟩, b.placed w.directory, w', ?_,
      hfirst.trans hrest, ?_, ?_⟩
    · rw [StateT.run_bind, run_during, hmade, ← hplaced]
      rw [← hplaced] at hclear
      have hrun := run_during .prepare (clear { b with directory := d }) w₁
      rw [hclear] at hrun
      change StateT.run (do
        return (← (during .prepare (clear { b with directory := d })).run,
          { b with directory := d })) w₁ = _
      rw [StateT.run_bind, hrun]
      rfl
    · intro e he
      cases r with
      | error fault =>
        cases he
        rfl
      | ok u => cases he
    · intro hr
      cases r with
      | error fault => cases hr
      | ok u => exact ⟨rfl, hvacant rfl⟩

end Build

end Reckon
