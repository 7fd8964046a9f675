import Reckon.Proofs.Emission

namespace Reckon

def Operator.IsPrint (op : Operator) : Prop := op.kind = .call ∧ op.name = "print"

instance (op : Operator) : Decidable op.IsPrint := inferInstanceAs (Decidable (_ ∧ _))

theorem routine?_eq_some {name routine : String} (h : routine? name = some routine) :
    name = "print" ∧ routine = dumpRoutine := by
  rw [routine?] at h
  split at h
  · cases h
    exact ⟨‹_›, rfl⟩
  · cases h

namespace Expr

/-- The expressions that stand for a word: numerals under the four operations that have code. -/
inductive IsValue : Expr → Prop
  | integer (v : Int32) : IsValue (.literal (.integer v))
  | float (x : Single) : IsValue (.literal (.float x))
  | apply {l r : Expr} (op : Operator) (hk : op.kind ∈ [OpKind.plus, .subtract, .multiply, .equal])
      (hl : IsValue l) (hr : IsValue r) : IsValue (.apply op [l, r])

inductive IsStatement : Expr → Prop
  | bare {e : Expr} (h : IsValue e) : IsStatement e
  | print {e : Expr} (op : Operator) (hk : op.kind = .call) (hn : op.name = "print")
      (h : IsValue e) : IsStatement (.apply op [e])

/-- The word an expression stands for; one that has no value counts as zero. -/
def eval : Expr → UInt64
  | .literal (.integer v) => .ofBitVec (v.toBitVec.signExtend 64)
  | .literal (.float x) => .ofBitVec (x.bits.toBitVec.signExtend 64)
  | .apply op [l, r] =>
    match op.kind with
    | .plus => l.eval + r.eval
    | .subtract => l.eval - r.eval
    | .multiply => l.eval * r.eval
    | .equal => if l.eval = r.eval then 1 else 0
    | _ => 0
  | _ => 0

/-- How many words the computation of an expression needs on the stack. -/
def need : Expr → Nat
  | .literal _ => 1
  | .apply _ [l, r] => max l.need (1 + r.need)
  | .apply _ [e] => e.need
  | _ => 0

def lines : Expr → List Bytes
  | .apply op [e] =>
    if op.kind = .call ∧ op.name = "print" then
      [utf8 (String.ofList (Nat.toDigits 10 e.eval.toNat ++ ['\n']))]
    else []
  | _ => []

variable {e l r : Expr} {op : Operator} {code : List Instr}

theorem IsValue.lines_eq_nil (h : IsValue e) : e.lines = [] := by
  cases h <;> rfl

theorem lines_print (e : Expr) (hk : op.kind = .call) (hn : op.name = "print") :
    (Expr.apply op [e]).lines = [utf8 (dumpLine e.eval)] := by
  simp only [lines, hk, hn, and_self, if_true, dumpLine_eq]

theorem combine_of_kind {op : Operator} (l r : Expr)
    (hk : op.kind ∈ [OpKind.plus, .subtract, .multiply, .equal]) :
    ∃ c, Combine.ofOperator? op.kind = some c ∧
      c.eval? l.eval r.eval = some (Expr.apply op [l, r]).eval := by
  simp only [List.mem_cons, List.not_mem_nil, or_false] at hk
  rcases hk with hk | hk | hk | hk
  · exact ⟨.add, by rw [hk]; rfl, by simp [Combine.eval?, eval, hk]⟩
  · exact ⟨.sub, by rw [hk]; rfl, by simp [Combine.eval?, eval, hk]⟩
  · exact ⟨.mul, by rw [hk]; rfl, by simp [Combine.eval?, eval, hk]⟩
  · exact ⟨.eq, by rw [hk]; rfl, by simp [Combine.eval?, eval, hk]⟩

end Expr

variable {e l r : Expr} {op : Operator} {code : List Instr}

namespace Machine

def computed (m : Machine) (e : Expr) (n : Nat) : Machine :=
  { m with
    stack := e.eval :: m.stack
    pc := m.pc + n
    maxDepth := max m.maxDepth (m.stack.length + e.need) }

variable {m m' : Machine} {i : Instr}

theorem runFrom_cons (hm : m.halted = false) (hs : m.step i = (m', none)) (is : List Instr) :
    m.runFrom (i :: is) = { m' with pc := m'.pc + 1 }.runFrom is := by
  rw [runFrom, hm, hs]
  rfl

theorem runFrom_cons_error (hm : m.halted = false) (hs : m.step i = (m', some error))
    (is : List Instr) : m.runFrom (i :: is) = (m', some ⟨m'.pc, i, error⟩) := by
  rw [runFrom, hm, hs]
  rfl

end Machine

/-- Code that puts the value of an expression on the stack, whatever comes after it. -/
def Computes (code : List Instr) (e : Expr) : Prop :=
  ∀ (m : Machine) (rest : List Instr), m.halted = false →
    m.runFrom (code ++ rest) = (m.computed e code.length).runFrom rest

theorem Computes.push {v : Immediate} {a : Literal} (hw : v.word = (Expr.literal a).eval) :
    Computes [.push v] (.literal a) := by
  intro m rest hm
  have hs : m.step (.push v) = (m.push v.word, none) := by simp [Machine.step, hm]
  rw [List.singleton_append, Machine.runFrom_cons hm hs]
  simp [Machine.push, Machine.computed, hw, Expr.need]

theorem Computes.combine {cl cr : List Instr} {c : Combine} (hl : Computes cl l)
    (hr : Computes cr r) (hc : c.eval? l.eval r.eval = some (Expr.apply op [l, r]).eval) :
    Computes (cl ++ cr ++ [.combine c]) (.apply op [l, r]) := by
  intro m rest hm
  let k := (m.computed l cl.length).computed r cr.length
  have hk : k.halted = false := hm
  have hs : k.step (.combine c) =
      ({ k with stack := m.stack }.push (Expr.apply op [l, r]).eval, none) := by
    simp [k, Machine.step, Machine.computed, hm, hc]
  calc m.runFrom (cl ++ cr ++ [.combine c] ++ rest)
      = m.runFrom (cl ++ (cr ++ .combine c :: rest)) := by simp
    _ = (m.computed l cl.length).runFrom (cr ++ .combine c :: rest) := hl m _ hm
    _ = k.runFrom (.combine c :: rest) := hr _ _ hm
    _ = _ := Machine.runFrom_cons hk hs rest
    _ = (m.computed (.apply op [l, r]) (cl ++ cr ++ [Instr.combine c]).length).runFrom rest := by
      congr 1
      simp only [k, Machine.push, Machine.computed, Expr.need, List.length_cons,
        List.length_append, List.length_nil, Machine.mk.injEq, true_and, and_true]
      omega

namespace Expr

theorem IsValue.lowers (h : e.IsValue) :
    ∃ code, (∀ operand, e.lowerAs operand = .ok code) ∧ Computes code e := by
  induction h with
  | integer v => exact ⟨[.push (.int v)], fun _ => rfl, .push rfl⟩
  | float x => exact ⟨[.push (.float x)], fun _ => rfl, .push rfl⟩
  | @apply l r op hk hl hr ihl ihr =>
    obtain ⟨cl, hcl, hl'⟩ := ihl
    obtain ⟨cr, hcr, hr'⟩ := ihr
    obtain ⟨c, hc, hv⟩ := combine_of_kind l r hk
    refine ⟨cl ++ cr ++ [.combine c], fun operand => ?_, hl'.combine hr' hv⟩
    rw [lowerAs_binary hc, hcl, hcr]
    rfl

theorem kind_of_combine {c : Combine} (h : Combine.ofOperator? op.kind = some c) :
    op.kind ∈ [OpKind.plus, .subtract, .multiply, .equal] := by
  cases hk : op.kind <;> rw [hk] at h <;> cases h <;> decide

theorem supported_of_lowerAs {operand : Bool} (h : e.lowerAs operand = .ok code) :
    e.IsValue ∨ operand = false ∧ e.IsStatement := by
  unfold lowerAs at h
  fun_induction emit operand e generalizing code with
  | case2 _ v => exact .inl (.integer v)
  | case3 _ x => exact .inl (.float x)
  | case7 operand op c l r _ hc _ ihl ihr =>
    rw [code_operands] at h
    obtain ⟨cl, hl, h⟩ := bind_eq_ok.1 h
    obtain ⟨cr, hr, -⟩ := bind_eq_ok.1 h
    have hl' := (ihl hl).resolve_right fun h => Bool.noConfusion h.1
    have hr' := (ihr hr).resolve_right fun h => Bool.noConfusion h.1
    exact .inl (.apply op (kind_of_combine hc) hl' hr')
  | case9 operand op arg routine hn ho _ hk _ ih =>
    rw [code_operand] at h
    obtain ⟨ca, ha, -⟩ := bind_eq_ok.1 h
    obtain ⟨hp, -⟩ := routine?_eq_some hn
    have hvalue : IsValue arg := (ih ha).resolve_right fun h => Bool.noConfusion h.1
    exact .inr ⟨by simpa using ho, .print op hk hp hvalue⟩
  | _ => cases h

end Expr

def Sink.feed (s : Sink) : List Bytes → Sink × Bool
  | [] => (s, true)
  | l :: ls =>
    match s.write l with
    | some s' => s'.feed ls
    | none => (s, false)

theorem Sink.feed_append (s : Sink) (ls ks : List Bytes) :
    s.feed (ls ++ ks) = if (s.feed ls).2 then (s.feed ls).1.feed ks else s.feed ls := by
  induction ls generalizing s with
  | nil => rfl
  | cons l ls ih =>
    rw [List.cons_append, feed, feed]
    cases s.write l with
    | none => rfl
    | some s' => exact ih s'

/-- A run of some code on a machine, as far as its output goes: it feeds some lines to the sink and
goes on, or the sink refuses one and this is the error. -/
def Prints (code : List Instr) (ls : List Bytes) : Prop :=
  ∀ (m : Machine) (rest : List Instr), m.halted = false →
    ((m.output.feed ls).2 = true ∧ ∃ m' : Machine, m'.halted = false ∧
      m'.output = (m.output.feed ls).1 ∧ m.runFrom (code ++ rest) = m'.runFrom rest) ∨
    ((m.output.feed ls).2 = false ∧ ∃ (m' : Machine) (e : RunError), e.error = .sinkFull ∧
      m'.output = (m.output.feed ls).1 ∧ m.runFrom (code ++ rest) = (m', some e))

theorem Computes.prints (h : Computes code e) : Prints code [] := by
  intro m rest hm
  exact .inl ⟨rfl, m.computed e code.length, hm, rfl, h m rest hm⟩

theorem Computes.dump (h : Computes code e) (m : Machine) (rest : List Instr)
    (hm : m.halted = false) :
    m.runFrom (code ++ .call dumpRoutine :: rest) =
      let k := { m.computed e code.length with stack := m.stack }
      match m.output.write (utf8 (dumpLine e.eval)) with
      | some output => { k with pc := k.pc + 1, output }.runFrom rest
      | none => (k, some ⟨k.pc, .call dumpRoutine, .sinkFull⟩) := by
  let k := m.computed e code.length
  rw [h m _ hm]
  cases hw : m.output.write (utf8 (dumpLine e.eval)) with
  | some output =>
    have hs : k.step (.call dumpRoutine) = ({ k with stack := m.stack, output }, none) := by
      simp [k, Machine.step, Machine.computed, hm, hw]
    exact Machine.runFrom_cons (m := k) hm hs rest
  | none =>
    have hs : k.step (.call dumpRoutine) = ({ k with stack := m.stack }, some .sinkFull) := by
      simp [k, Machine.step, Machine.computed, hm, hw]
    exact Machine.runFrom_cons_error (m := k) hm hs rest

theorem Computes.dump_prints (h : Computes code e) :
    Prints (code ++ [.call dumpRoutine]) [utf8 (dumpLine e.eval)] := by
  intro m rest hm
  have hd := h.dump m rest hm
  rw [List.append_assoc, List.singleton_append, hd]
  simp only [Sink.feed]
  cases m.output.write (utf8 (dumpLine e.eval)) with
  | some output =>
    refine .inl ⟨rfl, ?_⟩
    exact ⟨{ m.computed e code.length with stack := m.stack, pc := _, output }, hm, rfl, rfl⟩
  | none =>
    refine .inr ⟨rfl, ?_⟩
    exact ⟨{ m.computed e code.length with stack := m.stack }, ⟨_, _, .sinkFull⟩, rfl, rfl, rfl⟩

theorem Prints.append {ca cb : List Instr} {la lb : List Bytes} (ha : Prints ca la)
    (hb : Prints cb lb) : Prints (ca ++ cb) (la ++ lb) := by
  intro m rest hm
  rw [Sink.feed_append, List.append_assoc]
  rcases ha m (cb ++ rest) hm with ⟨hf, m', hm', ho, hr⟩ | ⟨hf, m', e, he, ho, hr⟩
  · rw [if_pos hf, hr, ← ho]
    exact hb m' rest hm'
  · rw [if_neg (by simp [hf])]
    exact .inr ⟨hf, m', e, he, ho, hr⟩

theorem Expr.IsStatement.lowers (h : e.IsStatement) :
    ∃ code, e.lower = .ok code ∧ Prints code e.lines := by
  cases h with
  | bare h =>
    obtain ⟨code, hc, hr⟩ := h.lowers
    exact ⟨code, hc false, h.lines_eq_nil ▸ hr.prints⟩
  | @print a op hk hn h =>
    obtain ⟨code, hc, hr⟩ := h.lowers
    refine ⟨code ++ [.call dumpRoutine], ?_, lines_print a hk hn ▸ hr.dump_prints⟩
    rw [Expr.lower, lowerAs_print hk hn, hc]
    rfl

namespace Program

def IsSupported (p : Program) : Prop := ∀ e ∈ p.exprs, e.IsStatement

def lines (p : Program) : List Bytes := p.exprs.flatMap Expr.lines

theorem body_prints {es : List Expr} (h : ∀ e ∈ es, e.IsStatement) :
    ∃ code, body es = .ok code ∧ Prints code (es.flatMap Expr.lines) := by
  induction es with
  | nil => exact ⟨[], rfl, fun m rest hm => .inl ⟨rfl, m, hm, rfl, rfl⟩⟩
  | cons e es ih =>
    obtain ⟨ce, hce, hpe⟩ := (h e List.mem_cons_self).lowers
    obtain ⟨cs, hcs, hps⟩ := ih fun x hx => h x (List.mem_cons_of_mem e hx)
    refine ⟨ce ++ cs, ?_, hpe.append hps⟩
    rw [body_cons, hce, hcs]
    rfl

theorem supported_of_body {es : List Expr} (h : body es = .ok code) :
    ∀ e ∈ es, e.IsStatement := by
  induction es generalizing code with
  | nil => nofun
  | cons e es ih =>
    obtain ⟨ce, cs, hce, hcs, -⟩ := body_cons_ok h
    intro x hx
    rcases List.mem_cons.1 hx with rfl | hx
    · rcases Expr.supported_of_lowerAs hce with hv | ⟨-, hs⟩
      · exact .bare hv
      · exact hs
    · exact ih hcs x hx

theorem isSupported_iff (p : Program) : p.IsSupported ↔ ∃ code, p.lower = .ok code := by
  constructor
  · intro h
    obtain ⟨code, hc, -⟩ := body_prints h
    exact ⟨code ++ [.exit], by rw [lower, hc]; rfl⟩
  · rintro ⟨code, h⟩
    obtain ⟨cb, hb, -⟩ := bind_eq_ok.1 h
    exact supported_of_body hb

/-- A run of the code of a program feeds the lines of its statements to the sink, and fails only
when the sink refuses one. -/
theorem run_lower {p : Program} (h : p.lower = .ok code) (sink : Sink) :
    ∃ (m : Machine) (error : Option RunError),
      { output := sink : Machine }.run code = (m, error) ∧
      m.output = (sink.feed p.lines).1 ∧
      ((sink.feed p.lines).2 = true ∧ error = none ∨
        (sink.feed p.lines).2 = false ∧ ∃ e, error = some e ∧ e.error = .sinkFull) := by
  obtain ⟨cb, hb, hc⟩ := bind_eq_ok.1 h
  obtain ⟨cb', hb', hp⟩ := body_prints (supported_of_body hb)
  obtain rfl : cb = cb' := Except.ok.inj (hb.symm.trans hb')
  cases hc
  rcases hp { output := sink } [.exit] rfl with ⟨hf, m, hm, ho, hr⟩ | ⟨hf, m, e, he, ho, hr⟩
  · have hs : m.step .exit = ({ m with halted := true }, none) := by simp [Machine.step, hm]
    refine ⟨_, _, hr.trans (Machine.runFrom_cons hm hs []), ho, .inl ⟨hf, rfl⟩⟩
  · exact ⟨_, _, hr, ho, .inr ⟨hf, e, rfl, he⟩⟩

end Program

namespace Sink

def Takes (s : Sink) (ls : List Bytes) : Prop :=
  ∀ n, s.limit = some n → s.content.length + ls.flatten.length ≤ n

def received (s : Sink) (ls : List Bytes) : Sink := { s with content := s.content ++ ls.flatten }

variable {s : Sink} {l : Bytes} {ls ks : List Bytes}

theorem received_received : (s.received ls).received ks = s.received (ls ++ ks) := by
  simp [received]

theorem takes_received : (s.received ls).Takes ks ↔ s.Takes (ls ++ ks) := by
  simp [Takes, received, Nat.add_assoc]

theorem Takes.left (h : s.Takes (ls ++ ks)) : s.Takes ls := by
  intro n hn
  have hle := h n hn
  simp only [List.flatten_append, List.length_append] at hle
  omega

theorem write_of_takes (h : s.Takes [l]) : s.write l = some (s.received [l]) := by
  unfold write
  cases hn : s.limit with
  | none => simp [received, hn]
  | some n =>
    have hle := h n hn
    simp only [List.flatten_singleton] at hle
    simp [received, hn, hle]

theorem write_of_not_takes (h : ¬ s.Takes [l]) : s.write l = none := by
  unfold write
  cases hn : s.limit with
  | none => exact absurd (fun n hs => nomatch hn.symm.trans hs) h
  | some n =>
    refine if_neg fun hle => h fun k hk => ?_
    cases hn.symm.trans hk
    simpa using hle

theorem feed_of_takes (h : s.Takes ls) : s.feed ls = (s.received ls, true) := by
  induction ls generalizing s with
  | nil => simp [feed, received]
  | cons l ls ih =>
    have hl : s.Takes [l] := Takes.left (show s.Takes ([l] ++ ls) from h)
    rw [feed, write_of_takes hl]
    dsimp only
    rw [ih (takes_received.2 h), received_received, List.singleton_append]

theorem feed_of_refused {before after : List Bytes} (hb : s.Takes before)
    (hl : ¬ s.Takes (before ++ [l])) :
    s.feed (before ++ l :: after) = (s.received before, false) := by
  have hw : (s.received before).write l = none :=
    write_of_not_takes fun h => hl (takes_received.1 h)
  rw [feed_append, feed_of_takes hb, if_pos rfl, feed, hw]

end Sink

theorem RunError.wraps_sinkFull (e : RunError) (he : e.error = .sinkFull) :
    ∃ context, e.diagnostic = .within context .sinkFull :=
  ⟨s!"instruction {e.pc} ({e.instr.text}): ", by rw [RunError.diagnostic, he]; rfl⟩

/-- Emulation prints the lines of the values, in the order of the statements. When the sink refuses
a line, the lines before it are what is printed, and the error is the sink's; nothing else makes a
run of lowered code fail. -/
theorem Program.emulate_prints_values (p : Program) (sink : Sink) :
    (p.IsSupported →
      (sink.Takes p.lines → p.emulate sink = (sink.received p.lines, none)) ∧
      ∀ before line after, p.lines = before ++ line :: after → sink.Takes before →
        ¬ sink.Takes (before ++ [line]) → ∃ error context,
          p.emulate sink = (sink.received before, some error) ∧
          error.diagnostic = .within context .sinkFull) ∧
    ∀ code error, p.lower = .ok code → ({ output := sink : Machine }.run code).2 = some error →
      error.error = .sinkFull := by
  refine ⟨fun hp => ?_, fun code error hc he => ?_⟩
  · obtain ⟨code, hc⟩ := p.isSupported_iff.1 hp
    obtain ⟨m, error, hr, ho, hf⟩ := run_lower hc sink
    have hem : p.emulate sink = (m.output, error.map .run) := by
      rw [emulate, hc]
      simp only [hr]
    refine ⟨fun ht => ?_, fun before line after hl hb hn => ?_⟩
    · rw [Sink.feed_of_takes ht] at ho hf
      obtain rfl : error = none := by simpa using hf
      rw [hem, ho]
      rfl
    · rw [hl, Sink.feed_of_refused hb hn] at ho hf
      obtain ⟨e, rfl, he⟩ : ∃ e, error = some e ∧ e.error = .sinkFull := by simpa using hf
      obtain ⟨context, hd⟩ := e.wraps_sinkFull he
      exact ⟨.run e, context, by rw [hem, ho]; rfl, hd⟩
  · obtain ⟨m, error', hr, -, hf⟩ := run_lower hc sink
    rw [hr] at he
    rcases hf with ⟨-, rfl⟩ | ⟨-, e, rfl, hs⟩
    · cases he
    · cases he
      exact hs

/-- Two lines, of which a sink of twenty-two bytes takes only the first. -/
theorem Program.emulate_refused_line :
    let difference := Expr.binary .subtract (.literal (.integer 2)) (.literal (.integer 3))
    let p : Program := ⟨[.call "print" difference, difference,
      .call "print" (.binary .equal difference difference)]⟩
    let line := utf8 "18446744073709551615\n"
    p.IsSupported ∧ p.lines = [line, utf8 "1\n"] ∧ ∃ error context,
      p.emulate { limit := some 22 } = ({ limit := some 22, content := line }, some error) ∧
      error.diagnostic = .within context .sinkFull := by
  intro difference p line
  have hd : difference.IsValue := .apply _ (by decide) (.integer 2) (.integer 3)
  have hp : p.IsSupported := by
    intro e he
    simp only [p, List.mem_cons, List.not_mem_nil, or_false] at he
    rcases he with rfl | rfl | rfl
    · exact .print _ rfl rfl hd
    · exact .bare hd
    · exact .print _ rfl rfl (.apply _ (by decide) hd hd)
  have hl : p.lines = [line, utf8 "1\n"] := by decide
  refine ⟨hp, hl, ?_⟩
  have hs := ((p.emulate_prints_values { limit := some 22 }).1 hp).2 [line] (utf8 "1\n") [] hl
  refine hs (fun n hn => ?_) fun ht => ?_
  · cases hn
    decide
  · exact absurd (ht 22 rfl) (by decide)

end Reckon
