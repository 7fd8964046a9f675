import Mathlib.Data.List.Basic
import Reckon.Proofs.Evaluation

namespace Reckon

namespace Expr

inductive Complete : Expr → Prop where
  | literal (l : Literal) : Complete (.literal l)
  | apply {op : Operator} {args : List Expr} :
    (∀ code, op.kind ≠ .other code) → args.length = op.kind.arity →
    (∀ a ∈ args, Complete a) → Complete (.apply op args)

abbrev Entry := Nat × (Literal ⊕ Operator)

/-- A node that has no code: a leaf that is no number, an operator that is neither one of the four
with an instruction nor a call of `print`, and a call of `print` below the root. -/
def Offends : Entry → Prop
  | (_, .inl l) => l.kind ≠ .integer ∧ l.kind ≠ .float
  | (depth, .inr op) =>
    op.kind ∉ [OpKind.plus, .subtract, .multiply, .equal] ∧ ¬ op.IsPrint ∨ op.IsPrint ∧ depth ≠ 0

instance : DecidablePred Offends
  | (_, .inl _) => inferInstanceAs (Decidable (_ ∧ _))
  | (_, .inr _) => inferInstanceAs (Decidable (_ ∨ _))

def blame : Entry → String
  | (_, .inl l) => l.kind.name ++ " literal " ++ l.text
  | (_, .inr op) => if op.IsPrint then "print used as a value" else op.text

/-- An answer to some nodes: code when none of them offends, otherwise an error that describes the
first that does. -/
inductive Verdict (nodes : List Entry) : Except LowerError (List Instr) → Prop where
  | clean (code : List Instr) : nodes.find? (Offends ·) = none → Verdict nodes (.ok code)
  | blamed {n : Entry} :
    nodes.find? (Offends ·) = some n → Verdict nodes (.error (.unsupported (blame n)))

namespace Verdict

variable {n : Entry} {nodes nodes' : List Entry} {x : Except LowerError (List Instr)}

theorem offender (h : Offends n) (nodes : List Entry) :
    Verdict (n :: nodes) (.error (.unsupported (blame n))) := by
  apply blamed
  exact List.find?_cons_of_pos (decide_eq_true h)

theorem congr (hfind : nodes.find? (Offends ·) = nodes'.find? (Offends ·))
    (h : Verdict nodes' x) : Verdict nodes x := by
  cases h with
  | clean code h => exact .clean code (hfind.trans h)
  | blamed h => exact .blamed (hfind.trans h)

theorem cons (hn : ¬ Offends n) (h : Verdict nodes x) : Verdict (n :: nodes) x := by
  apply congr _ h
  exact List.find?_cons_of_neg (by simpa using hn)

theorem bind {f : List Instr → Except LowerError (List Instr)} (h : Verdict nodes x)
    (hf : ∀ code, Verdict nodes' (f code)) : Verdict (nodes ++ nodes') (x >>= f) := by
  cases h with
  | clean code h =>
    apply congr _ (hf code)
    rw [List.find?_append, h, Option.none_or]
  | blamed h =>
    apply blamed
    rw [List.find?_append, h, Option.some_or]

end Verdict

section Nodes

variable {op : Operator} {depth : Nat}

theorem not_offends_operator {c : Combine} (hc : Combine.ofOperator? op.kind = some c) :
    ¬ Offends (depth, .inr op) := by
  rintro (⟨hk, -⟩ | ⟨⟨hk, -⟩, -⟩)
  · exact hk (kind_of_combine hc)
  · rw [hk] at hc
    cases hc

theorem arity_of_combine {c : Combine} (hc : Combine.ofOperator? op.kind = some c) :
    op.kind.arity = 2 := by
  have hk := kind_of_combine hc
  simp only [List.mem_cons, List.not_mem_nil, or_false] at hk
  rcases hk with hk | hk | hk | hk <;> rw [hk] <;> rfl

theorem blame_print (h : op.IsPrint) (depth : Nat) :
    blame (depth, .inr op) = op.name ++ " used as a value" := by
  rw [h.2]
  exact if_pos h

theorem Verdict.operator {args : List Expr} (hlength : args.length = op.kind.arity)
    (hcall : ∀ a, args = [a] → ¬ op.IsPrint)
    (hbinary : ∀ c l r, Combine.ofOperator? op.kind = some c → args ≠ [l, r])
    (nodes : List Entry) :
    Verdict ((depth, .inr op) :: nodes) (.error (.unsupported op.text)) := by
  have hprint : ¬ op.IsPrint := by
    intro hp
    have hone : args.length = 1 := by
      rw [hlength, hp.1]
      rfl
    obtain ⟨a, ha⟩ := List.length_eq_one_iff.1 hone
    exact hcall a ha hp
  have hkind : op.kind ∉ [OpKind.plus, .subtract, .multiply, .equal] := by
    intro hk
    obtain ⟨c, hc, -⟩ := combine_of_kind .missing .missing hk
    rw [arity_of_combine hc] at hlength
    obtain ⟨l, r, hargs⟩ := List.length_eq_two.1 hlength
    exact hbinary c l r hc hargs
  have hoffends : Offends (depth, .inr op) := .inl ⟨hkind, hprint⟩
  have hblame : blame (depth, .inr op) = op.text := if_neg hprint
  rw [← hblame]
  exact .offender hoffends nodes

end Nodes

/-- Lowering comes to the nodes in preorder: an operator before its operands, and the left operand
before the right one. -/
theorem Complete.verdict {e : Expr} {operand : Bool} {depth : Nat} (he : e.Complete)
    (hd : operand = decide (depth ≠ 0)) : Verdict (e.preorder depth) (e.lowerAs operand) := by
  unfold lowerAs
  fun_induction emit operand e generalizing depth with
  | case1 => cases he
  | case2 => exact .clean _ rfl
  | case3 => exact .clean _ rfl
  | case4 operand l hint hfloat =>
    apply Verdict.offender
    cases l with
    | integer v => exact absurd rfl (hint v)
    | float x => exact absurd rfl (hfloat x)
    | _ => simp [Offends, Literal.kind]
  | case5 operand op args code hk =>
    cases he with
    | apply hknown _ _ => exact absurd hk (hknown code)
  | case6 operand op args hother hlength =>
    cases he with
    | apply _ harity _ => exact absurd harity hlength
  | case7 operand op c l r _ hc _ ihl ihr =>
    cases he with
    | apply _ _ hargs =>
      obtain ⟨hl, hr⟩ := List.forall_mem_cons.1 hargs
      have hdeeper : true = decide (depth + 1 ≠ 0) := rfl
      rw [code_operands]
      apply Verdict.cons (not_offends_operator hc)
      apply (ihl hl hdeeper).bind
      intro cl
      apply (ihr (List.forall_mem_singleton.1 hr) hdeeper).bind
      intro cr
      exact .clean _ rfl
  | case8 op arg routine hn _ hk =>
    have hp : op.IsPrint := ⟨hk, (routine?_eq_some hn).1⟩
    rw [← blame_print hp depth]
    apply Verdict.offender
    exact .inr ⟨hp, of_decide_eq_true hd.symm⟩
  | case9 operand op arg routine hn ho _ hk _ ih =>
    cases he with
    | apply _ _ hargs =>
      have hroot : ¬ depth ≠ 0 := by simpa [hd] using ho
      have hclean : ¬ Offends (depth, .inr op) := by
        rintro (⟨-, hp⟩ | ⟨-, h⟩)
        · exact hp ⟨hk, (routine?_eq_some hn).1⟩
        · exact hroot h
      rw [code_operand]
      apply Verdict.cons hclean
      apply (ih (List.forall_mem_singleton.1 hargs) rfl).bind
      intro code
      exact .clean _ rfl
  | case10 operand op arg _ hcall harity =>
    apply Verdict.operator (Decidable.not_not.1 harity)
    · intro _ _ hp
      exact hcall dumpRoutine hp.1 (if_pos hp.2)
    · intro c l r _ hargs
      cases hargs
  | case11 operand op args hone _ harity htwo =>
    apply Verdict.operator (Decidable.not_not.1 harity)
    · intro a ha
      exact absurd ha (hone a)
    · exact htwo

/-- A complete tree has code exactly when no node of it offends. Otherwise the error is that the
language does not support the first node in preorder that does. -/
theorem lower_blames_first {e : Expr} (he : e.Complete) :
    ((∃ code, e.lower = .ok code) ↔ ∀ n ∈ e.preorder 0, ¬ Offends n) ∧
    ∀ n, (e.preorder 0).find? (Offends ·) = some n →
      e.lower = .error (.unsupported (blame n)) := by
  have hverdict : Verdict (e.preorder 0) e.lower := he.verdict rfl
  have hnone : (e.preorder 0).find? (Offends ·) = none ↔ ∀ n ∈ e.preorder 0, ¬ Offends n := by
    simp [List.find?_eq_none]
  rw [← hnone]
  generalize e.lower = answer at hverdict
  cases hverdict with
  | clean code h => simp [h]
  | blamed h => simp [h]

/-- A name below the left operand comes before the `print` that stands for the right one. -/
theorem lower_blames_first_name :
    let difference := Expr.binary .subtract (.literal (.integer 1)) (.symbol "x")
    let e := Expr.call "print" (.binary .multiply difference (.call "print" (.symbol "y")))
    e.Complete ∧ e.lower = .error (.unsupported "symbol literal x") := by
  intro difference e
  have binary {k : OpKind} {l r : Expr} (hk : k = .subtract ∨ k = .multiply) (hl : l.Complete)
      (hr : r.Complete) : (Expr.binary k l r).Complete := by
    have hargs : ∀ a ∈ [l, r], a.Complete :=
      List.forall_mem_cons.2 ⟨hl, List.forall_mem_singleton.2 hr⟩
    rcases hk with rfl | rfl <;> exact .apply nofun rfl hargs
  have call {a : Expr} (ha : a.Complete) : (Expr.call "print" a).Complete :=
    .apply nofun rfl (List.forall_mem_singleton.2 ha)
  have he : e.Complete := by
    apply call
    apply binary (.inr rfl)
    · exact binary (.inl rfl) (.literal _) (.literal _)
    · exact call (.literal _)
  exact ⟨he, (lower_blames_first he).2 (3, .inl (.symbol "x")) (by decide)⟩

end Expr

end Reckon
