import Mathlib
import Reckon.Proofs.Evaluation

namespace Reckon

namespace Expr

def isBare : Expr → Bool
  | .apply op _ => ¬ op.IsPrint
  | _ => true

theorem IsValue.isBare {e : Expr} (h : e.IsValue) : e.isBare := by
  cases h with
  | integer v => rfl
  | float x => rfl
  | apply op hk hl hr =>
    have hprint : ¬ op.IsPrint := by
      rintro ⟨hcall, -⟩
      rw [hcall] at hk
      exact absurd hk (by decide)
    exact decide_eq_true hprint

/-- The values that statements leave on the stack, the last one on top. -/
def leftover (es : List Expr) : List UInt64 := ((es.filter isBare).map eval).reverse

theorem leftover_cons (e : Expr) (es : List Expr) :
    leftover (e :: es) = leftover es ++ leftover [e] := by
  cases he : e.isBare <;> simp [leftover, he]

theorem length_leftover (e : Expr) : (leftover [e]).length = if e.isBare then 1 else 0 := by
  cases he : e.isBare <;> simp [leftover, he]

/-- The deepest that statements bring a stack of some words: in each of them, what the bare ones
before it have left and its own need. -/
def peak (base : Nat) (es : List Expr) : Nat :=
  Finset.univ.sup fun i : Fin es.length => base + (es.take i).countP isBare + es[i].need

theorem peak_nil (base : Nat) : peak base [] = 0 := rfl

theorem peak_cons (base : Nat) (e : Expr) (es : List Expr) :
    peak base (e :: es) =
      max (base + e.need) (peak (base + if e.isBare then 1 else 0) es) := by
  unfold peak
  simp only [List.length_cons, Fin.univ_succ, Finset.sup_cons, Finset.sup_map]
  congr 1
  apply Finset.sup_congr rfl
  intro i _
  change base + (e :: es.take i).countP isBare + es[i].need = _
  rw [List.countP_cons]
  omega

end Expr

theorem Sink.received_nil (s : Sink) : s.received [] = s := by
  simp [received]

namespace Machine

def executed (m : Machine) (es : List Expr) (n : Nat) : Machine :=
  { m with
    stack := Expr.leftover es ++ m.stack
    pc := m.pc + n
    maxDepth := max m.maxDepth (Expr.peak m.stack.length es)
    output := m.output.received (es.flatMap Expr.lines) }

theorem executed_nil (m : Machine) : m.executed [] 0 = m := by
  simp [executed, Expr.leftover, Expr.peak_nil, Sink.received_nil]

theorem executed_cons (m : Machine) (e : Expr) (es : List Expr) (k n : Nat) :
    (m.executed [e] k).executed es n = m.executed (e :: es) (k + n) := by
  have hpeak : Expr.peak m.stack.length (e :: es) = max (Expr.peak m.stack.length [e])
      (Expr.peak (Expr.leftover [e] ++ m.stack).length es) := by
    rw [Expr.peak_cons, Expr.peak_cons _ e [], Expr.peak_nil, Nat.max_zero, List.length_append,
      Expr.length_leftover, Nat.add_comm (ite _ _ _)]
  simp only [executed, Expr.leftover_cons e es, hpeak, Sink.received_received, List.append_assoc,
    Nat.max_assoc, Nat.add_assoc, List.flatMap_cons, List.flatMap_nil, List.append_nil]

end Machine

/-- Code that carries out some statements, whatever comes after it. -/
def Executes (code : List Instr) (es : List Expr) : Prop :=
  ∀ (m : Machine) (rest : List Instr), m.halted = false → m.output.Takes (es.flatMap Expr.lines) →
    m.runFrom (code ++ rest) = (m.executed es code.length).runFrom rest

namespace Executes

variable {code code' : List Instr} {e : Expr} {es : List Expr}

theorem nil : Executes [] [] := by
  intro m rest _ _
  rw [List.length_nil, Machine.executed_nil, List.nil_append]

theorem cons (h : Executes code [e]) (h' : Executes code' es) :
    Executes (code ++ code') (e :: es) := by
  intro m rest hm ht
  rw [List.flatMap_cons] at ht
  have hone : m.output.Takes ([e].flatMap Expr.lines) := by
    rw [List.flatMap_singleton]
    exact ht.left
  have hothers : (m.executed [e] code.length).output.Takes (es.flatMap Expr.lines) := by
    rw [Machine.executed, List.flatMap_singleton]
    exact Sink.takes_received.2 ht
  calc m.runFrom (code ++ code' ++ rest)
      = m.runFrom (code ++ (code' ++ rest)) := by rw [List.append_assoc]
    _ = (m.executed [e] code.length).runFrom (code' ++ rest) := h m _ hm hone
    _ = ((m.executed [e] code.length).executed es code'.length).runFrom rest := h' _ _ hm hothers
    _ = (m.executed (e :: es) (code ++ code').length).runFrom rest := by
      rw [Machine.executed_cons, List.length_append]

end Executes

namespace Computes

variable {code : List Instr} {e : Expr} {op : Operator}

theorem executes (h : Computes code e) (he : e.IsValue) : Executes code [e] := by
  intro m rest hm _
  rw [h m rest hm]
  congr 1
  simp [Machine.computed, Machine.executed, Expr.leftover, he.isBare, he.lines_eq_nil,
    Expr.peak_cons, Expr.peak_nil, Sink.received_nil]

theorem executes_print (h : Computes code e) (hop : op.IsPrint) :
    Executes (code ++ [.call dumpRoutine]) [.apply op [e]] := by
  have hlines := Expr.lines_print e hop.1 hop.2
  have hbare : (Expr.apply op [e]).isBare = false := by simp [Expr.isBare, hop]
  have hneed : (Expr.apply op [e]).need = e.need := by simp only [Expr.need]
  intro m rest hm ht
  rw [List.flatMap_singleton, hlines] at ht
  rw [List.append_assoc, List.singleton_append, h.dump m rest hm, Sink.write_of_takes ht]
  simp [Machine.computed, Machine.executed, Expr.leftover, hlines, hbare, hneed, Expr.peak_cons,
    Expr.peak_nil, Nat.add_assoc]

end Computes

theorem Expr.IsStatement.executes {e : Expr} (h : e.IsStatement) :
    ∃ code, e.lower = .ok code ∧ Executes code [e] := by
  cases h with
  | bare h =>
    obtain ⟨code, hc, hr⟩ := h.lowers
    exact ⟨code, hc false, hr.executes h⟩
  | print op hk hn h =>
    obtain ⟨code, hc, hr⟩ := h.lowers
    refine ⟨code ++ [.call dumpRoutine], ?_, hr.executes_print ⟨hk, hn⟩⟩
    rw [Expr.lower, lowerAs_print hk hn, hc]
    rfl

namespace Program

theorem body_executes {es : List Expr} (h : ∀ e ∈ es, e.IsStatement) :
    ∃ code, body es = .ok code ∧ Executes code es := by
  induction es with
  | nil => exact ⟨[], rfl, .nil⟩
  | cons e es ih =>
    obtain ⟨he, hes⟩ := List.forall_mem_cons.1 h
    obtain ⟨first, hfirst, hx⟩ := he.executes
    obtain ⟨rest, hrest, hxs⟩ := ih hes
    refine ⟨first ++ rest, ?_, hx.cons hxs⟩
    rw [body_cons, hfirst, hrest]
    rfl

/-- The machine after the code of a program, when its sink takes every line: it has come to the end
and halted there, the values that were not printed are on the stack, and the deepest it has been is
the greatest sum, over the statements, of the values left before and the words needed. -/
theorem run_final_state {p : Program} (hp : p.IsSupported) {sink : Sink}
    (hs : sink.Takes p.lines) :
    ∃ code, p.lower = .ok code ∧ { output := sink : Machine }.run code =
      ({ stack := ((p.exprs.filter Expr.isBare).map Expr.eval).reverse
         pc := code.length
         halted := true
         maxDepth := Finset.univ.sup fun i : Fin p.exprs.length =>
           (p.exprs.take i).countP Expr.isBare + p.exprs[i].need
         output := sink.received p.lines }, none) := by
  obtain ⟨code, hc, hx⟩ := body_executes hp
  refine ⟨code ++ [.exit], by rw [lower, hc]; rfl, ?_⟩
  let m : Machine := { output := sink }
  let k := m.executed p.exprs code.length
  have hk : k.halted = false := rfl
  have hexit : k.step .exit = ({ k with halted := true }, none) := by simp [Machine.step, hk]
  calc m.run (code ++ [Instr.exit])
      = k.runFrom [.exit] := hx m [.exit] rfl hs
    _ = ({ k with halted := true, pc := k.pc + 1 }, none) := Machine.runFrom_cons hk hexit []
    _ = _ := by
      simp [k, m, Machine.executed, Expr.leftover, Expr.peak, lines]

/-- A value stays below what is computed after it: a product with its sum on the right, and a
difference with another on the left. -/
theorem run_final_state_residue :
    let int (v : Int32) := Expr.literal (.integer v)
    let product := Expr.binary .multiply (int 2) (.binary .plus (int 3) (int 4))
    let difference := Expr.binary .subtract (.binary .subtract (int 5) (int 6)) (int 1)
    let p : Program := ⟨[int 9, .call "print" product, difference]⟩
    p.IsSupported ∧ ∃ code, p.lower = .ok code ∧ ({} : Machine).run code =
      ({ stack := [0xFFFFFFFFFFFFFFFE, 9], pc := 13, halted := true, maxDepth := 4,
         output := { content := utf8 "14\n" } }, none) := by
  intro int product difference p
  have hproduct : product.IsValue :=
    .apply _ (by decide) (.integer 2) (.apply _ (by decide) (.integer 3) (.integer 4))
  have hdifference : difference.IsValue :=
    .apply _ (by decide) (.apply _ (by decide) (.integer 5) (.integer 6)) (.integer 1)
  have hp : p.IsSupported := by
    intro e he
    simp only [p, List.mem_cons, List.not_mem_nil, or_false] at he
    rcases he with rfl | rfl | rfl
    · exact .bare (.integer 9)
    · exact .print _ rfl rfl hproduct
    · exact .bare hdifference
  have hs : ({} : Sink).Takes p.lines := by
    intro n hn
    cases hn
  obtain ⟨code, hc, hr⟩ := run_final_state hp hs
  refine ⟨hp, code, hc, hr.trans ?_⟩
  cases hc
  decide

end Program

end Reckon
