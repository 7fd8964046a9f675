import Reckon.Proofs.Evaluation
import Reckon.Proofs.RoundTrip

namespace Reckon

def Literal.Proper : Literal → Prop
  | .integer v => 0 ≤ v.toInt
  | .float x => x.isFinite ∧ ¬ x.negative
  | .string s => Piece.char '\\' ∉ s
  | .boolean _ => True
  | .symbol s => IsIdentifier s
  | .other _ _ => False

/-- An operator that a source can apply, with operands and a name as it takes them. -/
structure Operator.Fits (op : Operator) (args : List Expr) : Prop where
  length_eq : args.length = op.kind.arity
  present : .missing ∉ args
  known : ∀ code, op.kind ≠ .other code
  kind_ne : op.kind ≠ .logicalNegate
  target : op.kind = .assignment ∨ op.kind = .index → ∃ s rest, args = .symbol s :: rest
  callee : op.kind = .call → IsIdentifier op.name ∨ op.name = "print" ∨ op.name = "if"
  keyword : op.kind = .define → op.name = "print" ∨ op.name = "if"

theorem toNat_signExtend_lt {b : BitVec 32} (h : b.toNat < 2 ^ 31) :
    (b.signExtend 64).toNat < 2 ^ 31 := by
  have hmsb : b.msb = false := BitVec.msb_eq_false_iff_two_mul_lt.2 (by omega)
  rw [BitVec.signExtend_eq_setWidth_of_msb_false hmsb, BitVec.toNat_setWidth]
  omega

theorem word_int_lt {v : Int32} (h : 0 ≤ v.toInt) : (Immediate.int v).word.toNat < 2 ^ 31 := by
  apply toNat_signExtend_lt
  have hlt := v.toBitVec.isLt
  have hcases : v.toInt = _ := BitVec.toInt_eq_toNat_cond v.toBitVec
  split at hcases <;> omega

theorem word_float_lt {x : Single} (h : ¬ x.negative) :
    (Immediate.float x).word.toNat < 2 ^ 31 := by
  apply toNat_signExtend_lt
  simpa [Single.negative] using h

def Immediate.literal : Immediate → Literal
  | .int v => .integer v
  | .float x => .float x

theorem Literal.Proper.word_lt {v : Immediate} (h : v.literal.Proper) : v.word.toNat < 2 ^ 31 := by
  cases v with
  | int v => exact word_int_lt h
  | float x => exact word_float_lt h.2

namespace Expr

/-- A node that a source can write, whatever stands below it. -/
def Proper : Expr → Prop
  | .missing => False
  | .literal l => l.Proper
  | .apply op args => op.Fits args

inductive NodeOf : Expr → Expr → Prop where
  | root (e : Expr) : NodeOf e e
  | operand {op : Operator} {args : List Expr} {a n : Expr} :
    a ∈ args → NodeOf n a → NodeOf n (.apply op args)

inductive Lowers : Expr → List Instr → Prop where
  | push {v : Immediate} : v.literal.Proper → Lowers (.literal v.literal) [.push v]
  | combine {k : OpKind} {c : Combine} {l r : Expr} {cl cr : List Instr} :
    Combine.ofOperator? k = some c → Lowers l cl → Lowers r cr →
    Lowers (.binary k l r) (cl ++ cr ++ [.combine c])
  | call {name routine : String} {e : Expr} {code : List Instr} :
    routine? name = some routine → Lowers e code → Lowers (.call name e) (code ++ [.call routine])

theorem Lowers.push_proper {e : Expr} {code : List Instr} {v : Immediate} (h : e.Lowers code)
    (hv : .push v ∈ code) : v.literal.Proper := by
  induction h with
  | push hp =>
    cases List.mem_singleton.1 hv
    exact hp
  | combine _ _ _ ihl ihr =>
    simp only [List.mem_append, List.mem_singleton] at hv
    rcases hv with (hv | hv) | hv
    · exact ihl hv
    · exact ihr hv
    · cases hv
  | call _ _ ih =>
    simp only [List.mem_append, List.mem_singleton] at hv
    rcases hv with hv | hv
    · exact ih hv
    · cases hv

namespace WellFormed

variable {e n : Expr} {op : Operator} {args : List Expr}

theorem ne_missing (h : e.WellFormed) : e ≠ .missing := by
  rintro rfl
  cases h

theorem operands (h : (Expr.apply op args).WellFormed) : ∀ a ∈ args, a.WellFormed := by
  cases h with
  | unary _ he => exact List.forall_mem_singleton.2 he
  | binary _ he hf => exact List.forall_mem_cons.2 ⟨he, List.forall_mem_singleton.2 hf⟩
  | assignment hs he =>
    exact List.forall_mem_cons.2 ⟨.symbol hs, List.forall_mem_singleton.2 he⟩
  | index hs he => exact List.forall_mem_cons.2 ⟨.symbol hs, List.forall_mem_singleton.2 he⟩
  | call _ he => exact List.forall_mem_singleton.2 he
  | define _ he hf => exact List.forall_mem_cons.2 ⟨he, List.forall_mem_singleton.2 hf⟩

theorem node (h : e.WellFormed) (hn : n.NodeOf e) : n.WellFormed := by
  induction hn with
  | root e => exact h
  | operand ha _ ih => exact ih (h.operands _ ha)

theorem fits (h : (Expr.apply op args).WellFormed) : op.Fits args := by
  have hpresent : .missing ∉ args := fun hm => (h.operands _ hm).ne_missing rfl
  cases h with
  | unary hk =>
    rcases hk with rfl | rfl <;>
      exact ⟨rfl, hpresent, by simp, by simp, by simp, by simp, by simp⟩
  | binary hk =>
    simp only [OpKind.binary, List.mem_cons, List.not_mem_nil, or_false] at hk
    rcases hk with rfl | rfl | rfl | rfl | rfl | rfl | rfl | rfl | rfl | rfl | rfl | rfl <;>
      exact ⟨rfl, hpresent, by simp, by simp, by simp, by simp, by simp⟩
  | assignment =>
    exact ⟨rfl, hpresent, by simp, by simp, fun _ => ⟨_, _, rfl⟩, by simp, by simp⟩
  | index => exact ⟨rfl, hpresent, by simp, by simp, fun _ => ⟨_, _, rfl⟩, by simp, by simp⟩
  | call hs => exact ⟨rfl, hpresent, by simp, by simp, by simp, fun _ => hs, by simp⟩
  | define hs => exact ⟨rfl, hpresent, by simp, by simp, by simp, by simp, fun _ => hs⟩

theorem literal_proper {l : Literal} (h : (Expr.literal l).WellFormed) : l.Proper := by
  cases h with
  | integer hv => exact hv
  | float hf hx => exact ⟨by simpa [Single.isFinite] using hf, hx⟩
  | string hs => simpa [Literal.Proper, Text.ofChars] using hs
  | boolean => trivial
  | symbol hs => exact hs

theorem proper (h : e.WellFormed) : e.Proper := by
  cases e with
  | missing => exact h.ne_missing rfl
  | literal l => exact h.literal_proper
  | apply op args => exact h.fits

theorem render (h : e.WellFormed) : ∃ text, e.render = .ok text := by
  cases h with
  | integer => exact ⟨_, rfl⟩
  | float => exact ⟨_, rfl⟩
  | string => exact ⟨_, rfl⟩
  | boolean => exact ⟨_, rfl⟩
  | symbol => exact ⟨_, rfl⟩
  | unary hk => rcases hk with rfl | rfl <;> exact ⟨_, rfl⟩
  | binary hk =>
    simp only [OpKind.binary, List.mem_cons, List.not_mem_nil, or_false] at hk
    rcases hk with rfl | rfl | rfl | rfl | rfl | rfl | rfl | rfl | rfl | rfl | rfl | rfl <;>
      exact ⟨_, rfl⟩
  | assignment => exact ⟨_, rfl⟩
  | index => exact ⟨_, rfl⟩
  | call => exact ⟨_, rfl⟩
  | define => exact ⟨_, rfl⟩

theorem lowerAs_error {operand : Bool} {error : LowerError} (he : e.WellFormed)
    (h : e.lowerAs operand = .error error) : ∃ node, error = .unsupported node := by
  unfold lowerAs at h
  fun_induction emit operand e with
  | case1 => exact absurd rfl he.ne_missing
  | case2 => cases h
  | case3 => cases h
  | case5 _ _ _ code hk => exact absurd hk (he.fits.known code)
  | case6 _ _ _ _ hargs => exact absurd he.fits.length_eq hargs
  | case7 operand op c l r _ hc _ ihl ihr =>
    obtain ⟨hl, hr⟩ := List.forall_mem_cons.1 he.operands
    rw [code_operands] at h
    rcases bind_eq_error.1 h with h | ⟨_, _, h⟩
    · exact ihl hl h
    · rcases bind_eq_error.1 h with h | ⟨_, _, h⟩
      · exact ihr (List.forall_mem_singleton.1 hr) h
      · cases h
  | case9 operand op arg routine _ _ _ _ _ ih =>
    rw [code_operand] at h
    rcases bind_eq_error.1 h with h | ⟨_, _, h⟩
    · exact ih (List.forall_mem_singleton.1 he.operands) h
    · cases h
  | _ =>
    cases h
    exact ⟨_, rfl⟩

theorem eq_binary {c : Combine} {l r : Expr} (h : (Expr.apply op [l, r]).WellFormed)
    (hc : Combine.ofOperator? op.kind = some c) :
    Expr.apply op [l, r] = Expr.binary op.kind l r := by
  cases h with
  | binary => rfl
  | assignment => cases hc
  | index => cases hc
  | define => cases hc

theorem eq_call (h : (Expr.apply op [e]).WellFormed) (hk : op.kind = .call) :
    Expr.apply op [e] = Expr.call op.name e := by
  cases h with
  | unary hk' => rcases hk' with rfl | rfl <;> cases hk
  | call => rfl

theorem lowers {operand : Bool} {code : List Instr} (he : e.WellFormed)
    (h : e.lowerAs operand = .ok code) : e.Lowers code := by
  unfold lowerAs at h
  fun_induction emit operand e generalizing code with
  | case2 _ v =>
    cases h
    exact .push (v := .int v) he.literal_proper
  | case3 _ x =>
    cases h
    exact .push (v := .float x) he.literal_proper
  | case7 operand op c l r _ hc _ ihl ihr =>
    obtain ⟨hl, hr⟩ := List.forall_mem_cons.1 he.operands
    rw [code_operands] at h
    obtain ⟨cl, hcl, h⟩ := bind_eq_ok.1 h
    obtain ⟨cr, hcr, h⟩ := bind_eq_ok.1 h
    cases h
    rw [he.eq_binary hc]
    exact .combine hc (ihl hl hcl) (ihr (List.forall_mem_singleton.1 hr) hcr)
  | case9 operand op arg routine hn _ _ hk _ ih =>
    rw [code_operand] at h
    obtain ⟨ca, hca, h⟩ := bind_eq_ok.1 h
    cases h
    rw [he.eq_call hk]
    exact .call hn (ih (List.forall_mem_singleton.1 he.operands) hca)
  | _ => cases h

end WellFormed

end Expr

/-- Every node of a parsed tree is one that a source can write and has a text. The tree is lowered
or rejected as unsupported, and each word that its code pushes has thirty-one bits. -/
theorem Program.parse_proper {source : List Char} {p : Program}
    (h : Program.parse source = .ok p) :
    ∀ e ∈ p.exprs,
      (∀ n : Expr, n.NodeOf e → n.Proper ∧ ∃ text, n.render = .ok text) ∧
      (∀ error, e.lower = .error error → ∃ node, error = .unsupported node) ∧
      ∀ code, e.lower = .ok code → ∀ v, .push v ∈ code → v.word.toNat < 2 ^ 31 := by
  intro e he
  have hwf := wellFormed_of_parse h e he
  refine ⟨?_, ?_, ?_⟩
  · intro n hn
    exact ⟨(hwf.node hn).proper, (hwf.node hn).render⟩
  · intro error herror
    exact hwf.lowerAs_error herror
  · intro code hcode v hv
    exact ((hwf.lowers hcode).push_proper hv).word_lt

/-- A difference of an integer and a float, and an assignment, which has no code. -/
theorem Program.parse_proper_difference :
    let difference := Expr.binary .subtract (.literal (.integer 2)) (.literal (.float ⟨0x3FC00000⟩))
    let element := Expr.binary .index (.symbol "b") (.symbol "c")
    let assignment := Expr.binary .assignment (.symbol "y") element
    Program.parse "print(2 - 1.5)\ny = b[c]\n".toList =
      .ok ⟨[.call "print" difference, assignment]⟩ ∧
    difference.Proper ∧ (Immediate.float ⟨0x3FC00000⟩).word.toNat < 2 ^ 31 ∧
    assignment.lower = .error (.unsupported "Assignment") := by
  intro difference element assignment
  have htwo : Token.literal { toLexeme := .numeral "2".toList false } = .ok (.integer 2) := by
    decide +kernel
  have hhalf : Token.literal { toLexeme := .numeral "1.5".toList true } =
      .ok (.float ⟨0x3FC00000⟩) := by decide +kernel
  have hdifference : Grammar.Spells (.tier .logical)
      [.numeral "2".toList false, .plain .operator ['-'], .numeral "1.5".toList true] difference :=
    .binary (t := .expression) (s := "-") (v := [_]) (by decide) (.numeral rfl htwo) ⟨rfl, rfl⟩
      (.numeral rfl hhalf)
  have hprint := Grammar.Spells.command (l := .plain .keyword "print".toList) (.inl rfl) ⟨rfl, rfl⟩
    (.enclosed (l := .opening '(' 0) (m := .closing ')' 0) ⟨rfl, rfl⟩ hdifference ⟨rfl, rfl⟩)
  have hindex := Grammar.Spells.index (l := .plain .identifier ['b']) rfl
    (.enclosed (l := .opening '[' 0) (m := .closing ']' 0) ⟨rfl, rfl⟩
      (.operand (.name (l := .plain .identifier ['c']) rfl)) ⟨rfl, rfl⟩)
  have hassignment := Grammar.Spells.assignment (l := .plain .identifier ['y'])
    (m := .plain .operator ['=']) rfl ⟨rfl, rfl⟩ hindex
  have hall := Grammar.SpellsAll.cons (l := .plain .eol ['\n']) (.operand hprint) rfl
    (.cons (l := .plain .eol ['\n']) hassignment rfl .nil)
  have hparse : Program.parse "print(2 - 1.5)\ny = b[c]\n".toList =
      .ok ⟨[.call "print" difference, assignment]⟩ :=
    hall.parse ⟨(lex _).1, Prod.ext rfl (by decide +kernel), by decide +kernel⟩
  obtain ⟨hnodes, -, hwords⟩ := parse_proper hparse _ List.mem_cons_self
  refine ⟨hparse, ?_, ?_, rfl⟩
  · exact (hnodes difference (.operand (List.mem_singleton_self _) (.root _))).1
  · exact hwords _ rfl _ (List.mem_cons_of_mem _ List.mem_cons_self)

end Reckon
