import Reckon.Machine

namespace Reckon

theorem bind_eq_ok {ε α β : Type} {x : Except ε α} {f : α → Except ε β} {b : β} :
    x >>= f = .ok b ↔ ∃ a, x = .ok a ∧ f a = .ok b := by
  cases x with
  | error e => exact ⟨nofun, fun ⟨_, h, _⟩ => nomatch h⟩
  | ok a =>
    constructor
    · intro h
      exact ⟨a, rfl, h⟩
    · rintro ⟨_, ⟨⟩, h⟩
      exact h

theorem bind_eq_error {ε α β : Type} {x : Except ε α} {f : α → Except ε β} {e : ε} :
    x >>= f = .error e ↔ x = .error e ∨ ∃ a, x = .ok a ∧ f a = .error e := by
  cases x with
  | error e' =>
    constructor
    · intro h
      cases h
      exact .inl rfl
    · rintro (h | ⟨a, h, -⟩)
      · cases h
        rfl
      · cases h
  | ok a =>
    constructor
    · intro h
      exact .inr ⟨a, rfl, h⟩
    · rintro (h | ⟨_, ⟨⟩, h⟩)
      · cases h
      · exact h

theorem of_dite {α : Type} {P : α → Prop} {p : Prop} [Decidable p] {f : p → α} {g : ¬ p → α}
    (hpos : ∀ h, P (f h)) (hneg : ∀ h, P (g h)) : P (if h : p then f h else g h) := by
  by_cases hp : p
  · rw [dif_pos hp]
    exact hpos hp
  · rw [dif_neg hp]
    exact hneg hp

section Run

variable {σ ε α β : Type} {x : ExceptT ε (StateM σ) α} {f : α → ExceptT ε (StateM σ) β} {s s' : σ}

theorem run_bind_ok {a : α} (h : x.run.run s = (.ok a, s')) :
    (x >>= f).run.run s = (f a).run.run s' := by
  rw [ExceptT.run_bind, StateT.run_bind, h]
  rfl

theorem run_bind_error {e : ε} (h : x.run.run s = (.error e, s')) :
    (x >>= f).run.run s = (.error e, s') := by
  rw [ExceptT.run_bind, StateT.run_bind, h]
  rfl

end Run

theorem dumpLine_eq (w : UInt64) :
    dumpLine w = String.ofList (Nat.toDigits 10 w.toNat ++ ['\n']) := by
  simp [dumpLine, Nat.repr]

theorem Sink.content_of_write {s s' : Sink} {bytes : Bytes} (h : s.write bytes = some s') :
    s'.content = s.content ++ bytes := by
  unfold Sink.write at h
  split at h
  · split at h
    · cases h
      rfl
    · cases h
  · cases h
    rfl

end Reckon
