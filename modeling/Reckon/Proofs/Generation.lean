import Reckon.Generator
import Reckon.Proofs.Evaluation
import Reckon.Proofs.Writing

namespace Reckon

inductive Expr.Known : Expr → Prop where
  | missing : Known .missing
  | literal (l : Literal) : Known (.literal l)
  | apply {op : Operator} {args : List Expr} :
    (∀ code, op.kind ≠ .other code) → (∀ a ∈ args, Known a) → Known (.apply op args)

namespace Assembly

def Writable (i : Instr) : Prop := ∃ ls, lines i = .ok ls

theorem textBytes_texts {i : Instr} {ls : List Line} (h : lines i = .ok ls) :
    textBytes (texts i) = ls.flatMap Line.bytes := by
  rw [texts, h, textBytes, List.flatMap_map]
  rfl

theorem mapM_lines {code : List Instr} (h : ∀ i ∈ code, Writable i) :
    ∃ blocks, code.mapM lines = .ok blocks ∧
      blocks.flatten.flatMap Line.bytes = textBytes (code.flatMap texts) := by
  induction code with
  | nil => exact ⟨[], rfl, rfl⟩
  | cons i is ih =>
    obtain ⟨⟨ls, hi⟩, his⟩ := List.forall_mem_cons.1 h
    obtain ⟨blocks, hb, ht⟩ := ih his
    refine ⟨ls :: blocks, ?_, ?_⟩
    · rw [List.mapM_cons, hi, hb]
      rfl
    · rw [List.flatten_cons, List.flatMap_append, ← textBytes_texts hi, ht, List.flatMap_cons]
      simp only [textBytes, List.flatMap_append]

namespace Writer

variable {w : Writer}

theorem instr_writable {i : Instr} (h : w.buffer.IsOpen) (hi : Writable i) :
    ∃ w', w.instr i = (w', none) ∧ w'.buffer.IsOpen ∧
      w'.buffer.written = w.buffer.written ++ textBytes (texts i) := by
  obtain ⟨ls, hi⟩ := hi
  obtain ⟨ho, hw⟩ := instr_open h i
  refine ⟨(w.instr i).1, Prod.ext rfl ?_, ho, hw⟩
  have hp := (put_open h ls).1.failed
  rw [instr, if_neg (by simp [h.failed]), hi]
  simp [report, error?, hp]

theorem instrs_writable {code : List Instr} (h : w.buffer.IsOpen)
    (hc : ∀ i ∈ code, Writable i) :
    ∃ w', w.instrs code = (w', none) ∧ w'.buffer.IsOpen ∧
      w'.buffer.written = w.buffer.written ++ textBytes (code.flatMap texts) := by
  induction code generalizing w with
  | nil => exact ⟨w, rfl, h, by simp [textBytes]⟩
  | cons i is ih =>
    obtain ⟨hi, his⟩ := List.forall_mem_cons.1 hc
    obtain ⟨w', hw', ho, hwritten⟩ := instr_writable h hi
    obtain ⟨w'', hw'', ho', hwritten'⟩ := ih ho his
    refine ⟨w'', ?_, ho', ?_⟩
    · rw [instrs, hw']
      exact hw''
    · rw [hwritten', hwritten, List.flatMap_cons, List.append_assoc]
      simp only [textBytes, List.flatMap_append]

end Writer

end Assembly

theorem Buffer.IsOpen.flush_open {b : Buffer} (h : b.IsOpen) : b.flush.IsOpen := by
  unfold Buffer.flush
  split
  · exact h
  · exact (h.send b.pending).1

open Assembly (Writable)

namespace Expr

variable {e : Expr} {operand : Bool}

theorem writable_of_lowerAs {code : List Instr} (h : e.lowerAs operand = .ok code) :
    ∀ i ∈ code, Writable i := by
  unfold lowerAs at h
  fun_induction emit operand e generalizing code with
  | case2 _ v =>
    cases h
    exact List.forall_mem_singleton.2 ⟨_, rfl⟩
  | case3 _ x =>
    cases h
    exact List.forall_mem_singleton.2 ⟨_, rfl⟩
  | case7 operand op c l r _ hc _ ihl ihr =>
    rw [code_operands] at h
    obtain ⟨cl, hl, h⟩ := bind_eq_ok.1 h
    obtain ⟨cr, hr, h⟩ := bind_eq_ok.1 h
    cases h
    have hcombine : Writable (.combine c) := by
      cases hk : op.kind <;> rw [hk] at hc <;> cases hc <;> exact ⟨_, rfl⟩
    have hoperands := List.forall_mem_append.2 ⟨ihl hl, ihr hr⟩
    exact List.forall_mem_append.2 ⟨hoperands, List.forall_mem_singleton.2 hcombine⟩
  | case9 operand op arg routine hn ho _ hk _ ih =>
    rw [code_operand] at h
    obtain ⟨ca, ha, h⟩ := bind_eq_ok.1 h
    cases h
    obtain ⟨-, rfl⟩ := routine?_eq_some hn
    have hcall : Writable (.call dumpRoutine) := ⟨_, rfl⟩
    exact List.forall_mem_append.2 ⟨ih ha, List.forall_mem_singleton.2 hcall⟩
  | _ => cases h

theorem Known.lowerAs_ne (he : e.Known) {k : Int} :
    e.lowerAs operand ≠ .error (.unknownOperator k) := by
  intro h
  unfold lowerAs at h
  fun_induction emit operand e with
  | case5 _ op args code hk =>
    cases he with
    | apply hop _ => exact hop code hk
  | case7 operand op c l r _ hc _ ihl ihr =>
    cases he with
    | apply _ hargs =>
      obtain ⟨hl, hr⟩ := List.forall_mem_cons.1 hargs
      rw [code_operands] at h
      rcases bind_eq_error.1 h with h | ⟨_, _, h⟩
      · exact ihl hl h
      · rcases bind_eq_error.1 h with h | ⟨_, _, h⟩
        · exact ihr (List.forall_mem_singleton.1 hr) h
        · cases h
  | case9 operand op arg routine _ _ _ _ _ ih =>
    cases he with
    | apply _ hargs =>
      rw [code_operand] at h
      rcases bind_eq_error.1 h with h | ⟨_, _, h⟩
      · exact ih (List.forall_mem_singleton.1 hargs) h
      · cases h
  | _ => cases h

end Expr

namespace Program

variable {es : List Expr}

theorem body_eq (es : List Expr) : body es = List.flatten <$> es.mapM Expr.lower := by
  induction es with
  | nil => rfl
  | cons e es ih =>
    rw [body_cons, List.mapM_cons, ih]
    cases e.lower with
    | error error => rfl
    | ok code =>
      cases es.mapM Expr.lower with
      | error error => rfl
      | ok codes => rfl

/-- The error of a program is that of its first statement without code. -/
theorem first_of_body {error : LowerError} (h : body es = .error error) :
    ∃ before e after, es = before ++ e :: after ∧ (∀ b ∈ before, ∃ code, b.lower = .ok code) ∧
      e.lower = .error error := by
  induction es with
  | nil => cases h
  | cons e es ih =>
    rcases body_cons_error h with h | ⟨code, hcode, h⟩
    · exact ⟨[], e, es, rfl, List.forall_mem_nil _, h⟩
    · obtain ⟨before, x, after, rfl, hbefore, hx⟩ := ih h
      exact ⟨e :: before, x, after, rfl, List.forall_mem_cons.2 ⟨⟨code, hcode⟩, hbefore⟩, hx⟩

theorem writable_of_body {code : List Instr} (h : body es = .ok code) :
    ∀ i ∈ code, Writable i := by
  induction es generalizing code with
  | nil =>
    cases h
    exact List.forall_mem_nil _
  | cons e es ih =>
    obtain ⟨first, rest, hfirst, hrest, rfl⟩ := body_cons_ok h
    exact List.forall_mem_append.2 ⟨Expr.writable_of_lowerAs hfirst, ih hrest⟩

theorem body_of_lower {p : Program} {error : LowerError} (h : p.lower = .error error) :
    body p.exprs = .error error := by
  rcases bind_eq_error.1 h with h | ⟨_, _, h⟩
  · exact h
  · cases h

end Program

namespace Generator

variable {g : Generator} {es : List Expr}

theorem generate_open {e : Expr} {code : List Instr} (h : g.writer.buffer.IsOpen)
    (he : e.lower = .ok code) :
    ∃ g', g.generate e = (g', none) ∧ g'.writer.buffer.IsOpen ∧
      g'.writer.buffer.written =
        g.writer.buffer.written ++ Assembly.textBytes (code.flatMap Assembly.texts) := by
  obtain ⟨w, hi, ho, hw⟩ := Assembly.Writer.instrs_writable h (Expr.writable_of_lowerAs he)
  refine ⟨⟨w⟩, ?_, ho, hw⟩
  rw [generate, he]
  simp only [hi]
  rfl

theorem generateAll_open {code : List Instr} (h : g.writer.buffer.IsOpen)
    (hes : Program.body es = .ok code) :
    ∃ g', g.generateAll es = (g', es.length, none) ∧ g'.writer.buffer.IsOpen ∧
      g'.writer.buffer.written =
        g.writer.buffer.written ++ Assembly.textBytes (code.flatMap Assembly.texts) := by
  induction es generalizing g code with
  | nil =>
    cases hes
    exact ⟨g, rfl, h, by simp [Assembly.textBytes]⟩
  | cons e es ih =>
    obtain ⟨first, rest, hfirst, hrest, rfl⟩ := Program.body_cons_ok hes
    obtain ⟨g', hg, ho, hw⟩ := generate_open h hfirst
    obtain ⟨g'', hg', ho', hw'⟩ := ih ho hrest
    refine ⟨g'', ?_, ho', ?_⟩
    · simp only [generateAll, hg, hg', List.length_cons]
    · rw [hw', hw, List.append_assoc]
      simp only [Assembly.textBytes, List.flatMap_append]

theorem generateAll_error {error : LowerError} (h : g.writer.buffer.IsOpen)
    (hes : Program.body es = .error error) :
    ∃ g' n, g.generateAll es = (g', n, some (.lower error)) := by
  induction es generalizing g with
  | nil => cases hes
  | cons e es ih =>
    rcases Program.body_cons_error hes with he | ⟨first, hfirst, hes⟩
    · exact ⟨g, 0, by simp only [generateAll, generate, he]⟩
    · obtain ⟨g', hg, ho, -⟩ := generate_open h hfirst
      obtain ⟨g'', n, hg'⟩ := ih ho hes
      exact ⟨g'', n + 1, by simp only [generateAll, hg, hg']⟩

theorem ofSink_open (content : Bytes) :
    ∃ g, ofSink { content } = (g, none) ∧ g.writer.buffer.IsOpen ∧
      g.writer.buffer.written = content ++ Assembly.prologue.flatMap Assembly.Line.bytes := by
  obtain ⟨ho, hw⟩ := Assembly.Writer.put_open (w := .ofSink { content }) ⟨rfl, rfl⟩
    Assembly.prologue
  refine ⟨⟨(Assembly.Writer.ofSink { content }).put Assembly.prologue⟩, ?_, ho, ?_⟩
  · simp [ofSink, Assembly.Writer.prologue, Assembly.Writer.report, Assembly.Writer.error?,
      ho.failed]
  · rw [hw, Assembly.textBytes, List.flatMap_map]
    simp [Buffer.written, Assembly.Writer.ofSink]
    rfl

theorem finish_open (h : g.writer.buffer.IsOpen) :
    ∃ g', g.finish = (g', none) ∧ g'.writer.sink =
      { content := g.writer.buffer.written ++ Assembly.textBytes (Assembly.texts .exit) } := by
  obtain ⟨w, hi, ho, hw⟩ := Assembly.Writer.instr_writable (i := .exit) h ⟨_, rfl⟩
  have hflush := ho.flush_open
  refine ⟨⟨⟨w.buffer.flush⟩⟩, ?_, ?_⟩
  · simp [finish, Assembly.Writer.epilogue, hi, Assembly.Writer.flush, Assembly.Writer.report,
      Assembly.Writer.error?, hflush.failed]
  · rw [← hw, ← ho.flush, Assembly.Writer.sink, ← hflush.limit]

end Generator

namespace Program

variable {p : Program} {code : List Instr}

theorem generate_of_lower (h : p.lower = .ok code) (content : Bytes) :
    ∃ blocks, code.mapM Assembly.lines = .ok blocks ∧ p.generate { content } =
      ({ content := content ++ (Assembly.prologue ++ blocks.flatten).flatMap Assembly.Line.bytes },
        none) := by
  obtain ⟨cb, hb, hc⟩ := bind_eq_ok.1 h
  cases hc
  have hwritable : ∀ i ∈ cb ++ [.exit], Writable i :=
    List.forall_mem_append.2 ⟨writable_of_body hb, List.forall_mem_singleton.2 ⟨_, rfl⟩⟩
  obtain ⟨blocks, hblocks, hbytes⟩ := Assembly.mapM_lines hwritable
  obtain ⟨g, hg, ho, hw⟩ := Generator.ofSink_open content
  obtain ⟨g', hg', ho', hw'⟩ := Generator.generateAll_open ho hb
  obtain ⟨g'', hg'', hsink⟩ := Generator.finish_open ho'
  refine ⟨blocks, hblocks, ?_⟩
  unfold generate
  rw [hg]
  dsimp only
  rw [hg']
  dsimp only
  rw [hg'']
  dsimp only
  rw [hsink, hw', hw, List.flatMap_append, hbytes]
  simp only [Assembly.textBytes, List.flatMap_append, List.append_assoc, List.flatMap_singleton]

theorem generate_of_error {error : LowerError} (h : p.lower = .error error) (content : Bytes) :
    (p.generate { content }).2 = some (.lower error) := by
  obtain ⟨g, hg, ho, -⟩ := Generator.ofSink_open content
  obtain ⟨g', n, hg'⟩ := Generator.generateAll_error ho (body_of_lower h)
  unfold generate
  rw [hg]
  dsimp only
  rw [hg']

end Program

/-- Into a sink without a limit, the assembly of a program is the lines of its machine code, which
is the code of its statements one after another and the end of the process. A program without code
fails everywhere with the error of its first statement without code, and prints nothing. -/
theorem Program.generate_agrees_lower (p : Program) (hp : ∀ e ∈ p.exprs, e.Known)
    (content : Bytes) :
    ((p.generate { content }).2 = none ↔ ∃ code, p.lower = .ok code) ∧
    (∀ code, p.lower = .ok code → ∃ codes blocks,
      p.exprs.mapM Expr.lower = .ok codes ∧ code = codes.flatten ++ [.exit] ∧
      code.mapM Assembly.lines = .ok blocks ∧ p.generate { content } =
        ({ content :=
          content ++ (Assembly.prologue ++ blocks.flatten).flatMap Assembly.Line.bytes }, none)) ∧
    ∀ error, p.lower = .error error → (∀ k, error ≠ .unknownOperator k) ∧
      (∃ before e after, p.exprs = before ++ e :: after ∧
        (∀ b ∈ before, ∃ code, b.lower = .ok code) ∧ e.lower = .error error) ∧
      (p.generate { content }).2 = some (.lower error) ∧
      ∀ output, p.emulate output = (output, some (.lower error)) := by
  refine ⟨⟨fun h => ?_, ?_⟩, fun code h => ?_, fun error h => ?_⟩
  · cases hl : p.lower with
    | ok code => exact ⟨code, rfl⟩
    | error error => cases h.symm.trans (generate_of_error hl content)
  · rintro ⟨code, h⟩
    obtain ⟨blocks, -, hg⟩ := generate_of_lower h content
    rw [hg]
  · obtain ⟨blocks, hblocks, hg⟩ := generate_of_lower h content
    obtain ⟨cb, hb, hc⟩ := bind_eq_ok.1 h
    rw [body_eq] at hb
    cases hm : p.exprs.mapM Expr.lower with
    | error error =>
      rw [hm] at hb
      cases hb
    | ok codes =>
      rw [hm] at hb
      cases hb
      cases hc
      exact ⟨codes, blocks, rfl, rfl, hblocks, hg⟩
  · obtain ⟨before, e, after, hsplit, hbefore, he⟩ := first_of_body (body_of_lower h)
    have hknown : e.Known := by
      apply hp
      rw [hsplit]
      exact List.mem_append_right _ List.mem_cons_self
    refine ⟨?_, ⟨before, e, after, hsplit, hbefore, he⟩, generate_of_error h content, ?_⟩
    · rintro k rfl
      exact hknown.lowerAs_ne he
    · intro output
      rw [emulate, h]

/-- A sum is printed, and then `print` stands where a value is needed. -/
theorem Program.generate_agrees_lower_nested :
    let sum := Expr.binary .plus (.literal (.integer 2)) (.literal (.integer 3))
    let nested := Expr.call "print" (.call "print" sum)
    let error := LowerError.unsupported "print used as a value"
    (∃ blocks, [Instr.push (.int 2), .push (.int 3), .combine .add, .call "dump", .exit].mapM
        Assembly.lines = .ok blocks ∧
      Program.generate ⟨[.call "print" sum]⟩ {} =
        ({ content := (Assembly.prologue ++ blocks.flatten).flatMap Assembly.Line.bytes },
          none)) ∧
    Program.lower ⟨[.call "print" sum, nested]⟩ = .error error ∧
    (Program.generate ⟨[.call "print" sum, nested]⟩ {}).2 = some (.lower error) ∧
    Program.emulate ⟨[.call "print" sum, nested]⟩ {} = ({}, some (.lower error)) := by
  intro sum nested error
  have hsum : sum.Known := .apply nofun (List.forall_mem_cons.2
    ⟨.literal _, List.forall_mem_singleton.2 (.literal _)⟩)
  have hprint : (Expr.call "print" sum).Known := .apply nofun (List.forall_mem_singleton.2 hsum)
  have hnested : nested.Known := .apply nofun (List.forall_mem_singleton.2 hprint)
  have hlower : Program.lower ⟨[.call "print" sum, nested]⟩ = .error error := rfl
  obtain ⟨-, hok, -⟩ := generate_agrees_lower ⟨[.call "print" sum]⟩
    (List.forall_mem_singleton.2 hprint) []
  obtain ⟨-, -, hfail⟩ := generate_agrees_lower ⟨[.call "print" sum, nested]⟩
    (List.forall_mem_cons.2 ⟨hprint, List.forall_mem_singleton.2 hnested⟩) []
  obtain ⟨codes, blocks, -, -, hblocks, hg⟩ := hok _ rfl
  obtain ⟨-, -, hg', hemulate⟩ := hfail error hlower
  exact ⟨⟨blocks, hblocks, hg⟩, hlower, hg', hemulate {}⟩

end Reckon
