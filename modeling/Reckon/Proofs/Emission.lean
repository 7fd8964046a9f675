import Reckon.Lowering
import Reckon.Proofs.Basic

namespace Reckon

namespace Emit

variable {x y : Emit}

/-- What a computation appends, and whether it fails, does not depend on the code that is there. -/
def Framed (x : Emit) : Prop :=
  ∀ out, x.run.run out = ((x.run.run []).1, out ++ (x.run.run []).2)

theorem framed_pure : Framed (pure ()) := by
  intro out
  exact congrArg (Prod.mk _) (List.append_nil out).symm

theorem framed_throw (error : LowerError) : Framed (throw error) := by
  intro out
  exact congrArg (Prod.mk _) (List.append_nil out).symm

theorem framed_instr (i : Instr) : Framed (.instr i) := by
  intro out
  rfl

/-- The second computation appends to what the first has appended, unless the first fails. -/
theorem Framed.then (hx : Framed x) (hy : Framed y) : Framed (do x; y) := by
  intro out
  rcases hrun : x.run.run [] with ⟨r, first⟩
  have hout : x.run.run out = (r, out ++ first) := by rw [hx, hrun]
  cases r with
  | error error => rw [run_bind_error hout, run_bind_error hrun]
  | ok u => rw [run_bind_ok hout, run_bind_ok hrun, hy, hy first, List.append_assoc]

theorem framed_forM {α : Type} {f : α → Emit} (hf : ∀ a, Framed (f a)) (as : List α) :
    Framed (as.forM f) := by
  induction as with
  | nil => exact framed_pure
  | cons a as ih => exact (hf a).then ih

theorem code_then (hy : Framed y) : code (do x; y) = do
    let first ← x.code
    let second ← y.code
    return first ++ second := by
  unfold code
  rcases hrun : x.run.run [] with ⟨r, first⟩
  cases r with
  | error error =>
    rw [run_bind_error hrun]
    rfl
  | ok u =>
    rw [run_bind_ok hrun, hy]
    rcases y.run.run [] with ⟨r, second⟩
    cases r with
    | error error => rfl
    | ok u => rfl

end Emit

namespace Expr

variable {op : Operator} {e l r : Expr}

theorem framed_emit (operand : Bool) (e : Expr) : (e.emit operand).Framed := by
  fun_induction emit operand e with
  | case1 => exact Emit.framed_throw _
  | case2 => exact Emit.framed_instr _
  | case3 => exact Emit.framed_instr _
  | case7 operand op c left right _ _ _ ihl ihr => exact ihl.then (ihr.then (Emit.framed_instr _))
  | case9 operand op arg routine _ _ _ _ _ ih => exact ih.then (Emit.framed_instr _)
  | _ => exact Emit.framed_throw _

theorem code_operand (e : Expr) (i : Instr) :
    Emit.code (do e.emit true; Emit.instr i) = do
      let code ← e.lowerAs true
      return code ++ [i] :=
  Emit.code_then (Emit.framed_instr i)

theorem code_operands (l r : Expr) (i : Instr) :
    Emit.code (do l.emit true; r.emit true; Emit.instr i) = do
      let cl ← l.lowerAs true
      let cr ← r.lowerAs true
      return cl ++ cr ++ [i] := by
  have hright := (framed_emit true r).then (Emit.framed_instr i)
  rw [Emit.code_then hright, code_operand, ← lowerAs]
  cases l.lowerAs true with
  | error error => rfl
  | ok cl =>
    cases r.lowerAs true with
    | error error => rfl
    | ok cr => exact congrArg Except.ok (List.append_assoc cl cr [i]).symm

theorem lowerAs_binary {c : Combine} (hc : Combine.ofOperator? op.kind = some c)
    (operand : Bool) : (apply op [l, r]).lowerAs operand = do
      let cl ← l.lowerAs true
      let cr ← r.lowerAs true
      return cl ++ cr ++ [.combine c] := by
  rw [← code_operands, lowerAs, emit]
  cases hk : op.kind <;> rw [hk] at hc <;> cases hc
  all_goals simp [OpKind.arity, OpKind.info?, Combine.ofOperator?]

theorem lowerAs_print (hk : op.kind = .call) (hn : op.name = "print") :
    (apply op [e]).lowerAs false = do
      let code ← e.lowerAs true
      return code ++ [.call dumpRoutine] := by
  rw [← code_operand, lowerAs]
  simp [emit, hk, hn, routine?, OpKind.arity, OpKind.info?, Combine.ofOperator?]

end Expr

namespace Program

variable {e : Expr} {es : List Expr} {code : List Instr}

/-- The code of a statement is the same wherever the statement stands. -/
theorem body_cons (e : Expr) (es : List Expr) : body (e :: es) = do
    let first ← e.lower
    let rest ← body es
    return first ++ rest :=
  Emit.code_then (Emit.framed_forM (Expr.framed_emit false) es)

theorem body_cons_ok (h : body (e :: es) = .ok code) :
    ∃ first rest, e.lower = .ok first ∧ body es = .ok rest ∧ code = first ++ rest := by
  rw [body_cons] at h
  obtain ⟨first, hfirst, h⟩ := bind_eq_ok.1 h
  obtain ⟨rest, hrest, h⟩ := bind_eq_ok.1 h
  cases h
  exact ⟨first, rest, hfirst, hrest, rfl⟩

theorem body_cons_error {error : LowerError} (h : body (e :: es) = .error error) :
    e.lower = .error error ∨ ∃ first, e.lower = .ok first ∧ body es = .error error := by
  rw [body_cons] at h
  rcases bind_eq_error.1 h with h | ⟨first, hfirst, h⟩
  · exact .inl h
  · rcases bind_eq_error.1 h with h | ⟨rest, hrest, h⟩
    · exact .inr ⟨first, hfirst, h⟩
    · cases h

end Program

end Reckon
