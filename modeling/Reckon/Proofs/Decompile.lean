import Reckon.Proofs.CodeText

namespace Reckon

def Combine.operator : Combine → OpKind
  | .add => .plus
  | .sub => .subtract
  | .mul => .multiply
  | .eq => .equal
  | .other code => .other code.toNat

theorem Combine.operator_of_ofOperator? {k : OpKind} {c : Combine} (h : ofOperator? k = some c) :
    c.operator = k := by
  cases k <;> cases h <;> rfl

namespace Expr

/-- Runs code on trees in place of words. -/
def rebuild : List Expr → List Instr → List Expr
  | stack, [] => stack
  | stack, .push v :: code => rebuild (.literal v.literal :: stack) code
  | right :: left :: stack, .combine c :: code =>
    rebuild (.binary c.operator left right :: stack) code
  | e :: stack, .call _ :: code => rebuild (.call "print" e :: stack) code
  | stack, _ :: code => rebuild stack code

theorem Lowers.rebuild_code {e : Expr} {code : List Instr} (h : e.Lowers code)
    (stack : List Expr) (rest : List Instr) :
    rebuild stack (code ++ rest) = rebuild (e :: stack) rest := by
  induction h generalizing stack rest with
  | push => rfl
  | combine hc _ _ ihl ihr =>
    rw [← Combine.operator_of_ofOperator? hc, List.append_assoc, List.append_assoc, ihl, ihr]
    rfl
  | call hn _ ih =>
    obtain ⟨rfl, -⟩ := routine?_eq_some hn
    rw [List.append_assoc, ih]
    rfl

end Expr

namespace Program

variable {es es' : List Expr} {code : List Instr}

theorem rebuild_body (hes : ∀ e ∈ es, e.WellFormed) (h : body es = .ok code)
    (stack : List Expr) : Expr.rebuild stack code = es.reverse ++ stack := by
  induction es generalizing code stack with
  | nil => cases h; rfl
  | cons e es ih =>
    obtain ⟨he, hes⟩ := List.forall_mem_cons.1 hes
    obtain ⟨first, rest, hfirst, hrest, rfl⟩ := body_cons_ok h
    rw [(he.lowers hfirst).rebuild_code, ih hes hrest, List.reverse_cons, List.append_assoc]
    rfl

theorem body_injective (hes : ∀ e ∈ es, e.WellFormed) (hes' : ∀ e ∈ es', e.WellFormed)
    (h : body es = .ok code) (h' : body es' = .ok code) : es = es' := by
  have hrebuilt := (rebuild_body hes h []).symm.trans (rebuild_body hes' h' [])
  rw [List.append_nil, List.append_nil] at hrebuilt
  exact List.reverse_injective hrebuilt

end Program

theorem listing_of_compile {source : List Char} {out : Sink}
    (h : compile source {} = (out, none)) :
    ∃ p code, Program.parse source = .ok p ∧ Program.body p.exprs = .ok code ∧
      out.content = Assembly.listing (code ++ [.exit]) := by
  cases hp : Program.parse source with
  | error error =>
    rw [compile, hp] at h
    cases h
  | ok p =>
    cases hl : p.lower with
    | error error =>
      rw [compile_of_parse hp, Program.generate_of_error hl []] at h
      cases (Prod.mk.inj h).2
    | ok code =>
      rw [compile_listing hp hl] at h
      obtain ⟨body, hbody, hcode⟩ := bind_eq_ok.1 hl
      cases hcode
      cases h
      exact ⟨p, body, rfl, hbody, rfl⟩

/-- Two sources that compile have the same assembly exactly when they are the same program,
statement by statement. -/
theorem compile_injective {source source' : List Char} {out out' : Sink}
    (h : compile source {} = (out, none)) (h' : compile source' {} = (out', none)) :
    ∃ p p', Program.parse source = .ok p ∧ Program.parse source' = .ok p' ∧
      (out.content = out'.content ↔ p.exprs = p'.exprs) := by
  obtain ⟨p, code, hp, hcode, hout⟩ := listing_of_compile h
  obtain ⟨p', code', hp', hcode', hout'⟩ := listing_of_compile h'
  have hwf := Program.wellFormed_of_parse hp
  have hwf' := Program.wellFormed_of_parse hp'
  refine ⟨p, p', hp, hp', ?_⟩
  rw [hout, hout']
  constructor
  · intro heq
    have hexit : ∀ i ∈ [Instr.exit], Assembly.Legible i :=
      List.forall_mem_singleton.2 (.fixed (by decide))
    have hall := Assembly.listing_injective
      (List.forall_mem_append.2 ⟨Program.legible_of_body hwf hcode, hexit⟩)
      (List.forall_mem_append.2 ⟨Program.legible_of_body hwf' hcode', hexit⟩) heq
    cases List.append_cancel_right hall
    exact Program.body_injective hwf hwf' hcode hcode'
  · intro heq
    rw [heq, hcode'] at hcode
    cases hcode
    rfl

/-- An integer and the float of the same value have different assembly. -/
theorem compile_injective_float :
    ∃ out out', compile "3\n".toList {} = (out, none) ∧ compile "3.0\n".toList {} = (out', none) ∧
      out.content ≠ out'.content := by
  have hinteger : Token.literal { toLexeme := .numeral "3".toList false } = .ok (.integer 3) := by
    decide +kernel
  have hfloat : Token.literal { toLexeme := .numeral "3.0".toList true } =
      .ok (.float ⟨0x40400000⟩) := by decide +kernel
  have hparse : Program.parse "3\n".toList = .ok ⟨[.literal (.integer 3)]⟩ :=
    (Grammar.SpellsAll.cons (l := .plain .eol ['\n']) (.operand (.numeral rfl hinteger)) rfl
      .nil).parse ⟨(lex _).1, Prod.ext rfl (by decide +kernel), by decide +kernel⟩
  have hparse' : Program.parse "3.0\n".toList = .ok ⟨[.literal (.float ⟨0x40400000⟩)]⟩ :=
    (Grammar.SpellsAll.cons (l := .plain .eol ['\n']) (.operand (.numeral rfl hfloat)) rfl
      .nil).parse ⟨(lex _).1, Prod.ext rfl (by decide +kernel), by decide +kernel⟩
  have hlower : Program.lower ⟨[.literal (.integer 3)]⟩ = .ok [.push (.int 3), .exit] := rfl
  have hlower' : Program.lower ⟨[.literal (.float ⟨0x40400000⟩)]⟩ =
    .ok [.push (.float ⟨0x40400000⟩), .exit] := rfl
  have hout := compile_listing hparse hlower
  have hout' := compile_listing hparse' hlower'
  obtain ⟨p, p', hp, hp', hiff⟩ := compile_injective hout hout'
  cases hparse.symm.trans hp
  cases hparse'.symm.trans hp'
  refine ⟨_, _, hout, hout', fun heq => ?_⟩
  cases hiff.1 heq

end Reckon
