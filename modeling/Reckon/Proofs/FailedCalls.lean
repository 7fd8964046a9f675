import Reckon.Proofs.Generation

namespace Reckon

def Expr.failure (e : Expr) : Option GenerateError :=
  match e.lower with
  | .ok _ => none
  | .error error => some (.lower error)

theorem Expr.lower_of_failure {e : Expr} {error : LowerError}
    (h : e.failure = some (.lower error)) : e.lower = .error error := by
  rw [failure] at h
  cases he : e.lower with
  | ok code =>
    rw [he] at h
    cases h
  | error error' =>
    rw [he] at h
    cases h
    rfl

theorem Expr.lower_of_toOption {e : Expr} {code : List Instr}
    (h : e.lower.toOption = some code) : e.lower = .ok code := by
  cases he : e.lower with
  | ok code' =>
    rw [he] at h
    cases h
    rfl
  | error error =>
    rw [he] at h
    cases h

namespace Generator

/-- Makes a call for each expression and goes on behind the calls that fail; lists their errors. -/
def generateEach (g : Generator) : List Expr → Generator × List (Option GenerateError)
  | [] => (g, [])
  | e :: es =>
    let (g', error) := g.generate e
    let (h, errors) := g'.generateEach es
    (h, error :: errors)

variable {g : Generator} {e : Expr}

theorem generateEach_cons (g : Generator) (e : Expr) (es : List Expr) :
    g.generateEach (e :: es) = (((g.generate e).1.generateEach es).1,
      (g.generate e).2 :: ((g.generate e).1.generateEach es).2) := rfl

theorem generate_failed {error : LowerError} (he : e.lower = .error error) :
    g.generate e = (g, some (.lower error)) := by
  rw [generate, he]

/-- The calls that fail might as well not have been made. -/
theorem generateEach_filter (g : Generator) (es : List Expr) :
    (g.generateEach es).1 = (g.generateEach (es.filter (·.lower.isOk))).1 := by
  induction es generalizing g with
  | nil => rfl
  | cons e es ih =>
    rw [generateEach_cons]
    cases he : e.lower with
    | ok code =>
      rw [List.filter_cons_of_pos (by rw [he]; rfl), generateEach_cons]
      exact ih _
    | error error =>
      rw [List.filter_cons_of_neg (by rw [he]; exact Bool.false_ne_true), generate_failed he]
      exact ih g

/-- The step and the run: each call appends the lines of its expression or nothing at all. -/
theorem generateEach_open (h : g.writer.buffer.IsOpen) (es : List Expr) :
    (g.generateEach es).2 = es.map Expr.failure ∧
    (g.generateEach es).1.writer.buffer.IsOpen ∧
    (g.generateEach es).1.writer.buffer.written = g.writer.buffer.written ++
      Assembly.textBytes ((es.filterMap (·.lower.toOption)).flatten.flatMap Assembly.texts) := by
  induction es generalizing g with
  | nil => exact ⟨rfl, h, by simp [generateEach, Assembly.textBytes]⟩
  | cons e es ih =>
    rw [generateEach_cons, List.map_cons, Expr.failure]
    cases he : e.lower with
    | ok code =>
      obtain ⟨g', hg, ho, hw⟩ := generate_open h he
      obtain ⟨herrors, ho', hw'⟩ := ih ho
      rw [hg, List.filterMap_cons_some (b := code) (by rw [he]; rfl)]
      refine ⟨by rw [herrors], ho', ?_⟩
      rw [hw', hw, List.append_assoc]
      simp only [Assembly.textBytes, List.flatten_cons, List.flatMap_append]
    | error error =>
      rw [generate_failed he, List.filterMap_cons_none (by rw [he]; rfl)]
      obtain ⟨herrors, ho, hw⟩ := ih h
      exact ⟨by rw [herrors], ho, hw⟩

/-- With a sink that refuses nothing, a call fails exactly when its expression has no code, and with
that error. The text in the end is the prologue, the lines of the code of the other expressions in
the order of the calls, and the epilogue; the generator is the one that the other calls alone leave
behind. -/
theorem failed_calls_leave_no_trace (es : List Expr) (hes : ∀ e ∈ es, e.Known) (content : Bytes) :
    ∃ g, ofSink { content } = (g, none) ∧
      (g.generateEach es).2 = es.map Expr.failure ∧
      (∀ e ∈ es, ∀ k, e.failure ≠ some (.lower (.unknownOperator k))) ∧
      (g.generateEach es).1 = (g.generateEach (es.filter (·.lower.isOk))).1 ∧
      ∃ g' blocks last, (g.generateEach es).1.finish = (g', none) ∧
        (es.filterMap (·.lower.toOption)).flatten.mapM Assembly.lines = .ok blocks ∧
        Assembly.lines .exit = .ok last ∧ g'.writer.sink = { content := content ++
          (Assembly.prologue ++ blocks.flatten ++ last).flatMap Assembly.Line.bytes } := by
  obtain ⟨g, hg, ho, hw⟩ := ofSink_open content
  obtain ⟨herrors, ho', hw'⟩ := generateEach_open ho es
  obtain ⟨g', hfinish, hsink⟩ := finish_open ho'
  have hwritable : ∀ i ∈ (es.filterMap (·.lower.toOption)).flatten, Assembly.Writable i := by
    intro i hi
    obtain ⟨code, hcode, hi⟩ := List.mem_flatten.1 hi
    obtain ⟨e, -, he⟩ := List.mem_filterMap.1 hcode
    exact Expr.writable_of_lowerAs (Expr.lower_of_toOption he) i hi
  obtain ⟨blocks, hblocks, hbytes⟩ := Assembly.mapM_lines hwritable
  obtain ⟨last, hlast⟩ : Assembly.Writable .exit := ⟨_, rfl⟩
  refine ⟨g, hg, herrors, ?_, generateEach_filter g es, g', blocks, last, hfinish, hblocks, hlast,
    ?_⟩
  · intro e he k hk
    exact (hes e he).lowerAs_ne (Expr.lower_of_failure hk)
  · rw [hsink, hw', hw, ← hbytes, Assembly.textBytes_texts hlast]
    simp only [List.flatMap_append, List.append_assoc]

/-- Between two calls that succeed, one fails below a difference whose left operand has code, and
one for a missing operand. -/
theorem failed_calls_leave_no_trace_between :
    let sum := Expr.binary .plus (.literal (.integer 1)) (.literal (.integer 2))
    let deep := Expr.call "print" (.binary .subtract sum (.symbol "x"))
    let short := Expr.apply { kind := .plus } [sum]
    let es := [.call "print" sum, deep, short, .literal (.integer 7)]
    (∀ e ∈ es, e.Known) ∧ ∃ g, ofSink {} = (g, none) ∧
      (g.generateEach es).2 = [none, some (.lower (.unsupported "symbol literal x")),
        some (.lower (.operandCount { kind := .plus } 2 1)), none] ∧
      (g.generateEach es).1 =
        (g.generateEach [.call "print" sum, .literal (.integer 7)]).1 ∧
      ∃ g' blocks last, (g.generateEach es).1.finish = (g', none) ∧
        [Instr.push (.int 1), .push (.int 2), .combine .add, .call "dump", .push (.int 7)].mapM
          Assembly.lines = .ok blocks ∧
        Assembly.lines .exit = .ok last ∧ g'.writer.sink = { content :=
          (Assembly.prologue ++ blocks.flatten ++ last).flatMap Assembly.Line.bytes } := by
  intro sum deep short es
  have hsum : sum.Known := .apply nofun (List.forall_mem_cons.2
    ⟨.literal _, List.forall_mem_singleton.2 (.literal _)⟩)
  have hdifference : (Expr.binary .subtract sum (.symbol "x")).Known :=
    .apply nofun (List.forall_mem_cons.2 ⟨hsum, List.forall_mem_singleton.2 (.literal _)⟩)
  have call {e : Expr} (he : e.Known) : (Expr.call "print" e).Known :=
    .apply nofun (List.forall_mem_singleton.2 he)
  have hshort : short.Known := .apply nofun (List.forall_mem_singleton.2 hsum)
  have hes : ∀ e ∈ es, e.Known := by
    intro e he
    simp only [es, List.mem_cons, List.not_mem_nil, or_false] at he
    rcases he with rfl | rfl | rfl | rfl
    · exact call hsum
    · exact call hdifference
    · exact hshort
    · exact .literal _
  obtain ⟨g, hg, herrors, -, hfilter, g', blocks, last, hfinish, hblocks, hlast, hsink⟩ :=
    failed_calls_leave_no_trace es hes []
  exact ⟨hes, g, hg, herrors, hfilter, g', blocks, last, hfinish, hblocks, hlast, hsink⟩

end Generator

end Reckon
