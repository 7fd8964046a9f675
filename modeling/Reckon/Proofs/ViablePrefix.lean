import Mathlib
import Reckon.Proofs.Outcomes
import Reckon.Proofs.Recogniser

namespace Reckon

namespace Cursor

variable {c d : Cursor} {u v w x : List Lexeme}

theorem Step.size_lt (h : c.Step d) : d.size < c.size := h.take.1

theorem Steps.size_le (h : c.Steps w d) : d.size ≤ c.size := by
  induction h with
  | refl => exact Nat.le_refl _
  | cons hs _ ih => exact Nat.le_of_lt (Nat.lt_of_le_of_lt ih hs.size_lt)

theorem Step.unique {e : Cursor} (h : c.Step d) (h' : c.Step e) : d = e := by
  have heq := h.2.symm.trans h'.2
  obtain ⟨t, l⟩ := d
  obtain ⟨t', l'⟩ := e
  cases heq
  rfl

theorem Steps.unique (h : c.Steps v d) (h' : c.Steps w d) : v = w := by
  induction h generalizing w with
  | refl c =>
    cases h' with
    | refl => rfl
    | cons hs hw => exact absurd (Nat.lt_of_le_of_lt hw.size_le hs.size_lt) (Nat.lt_irrefl _)
  | cons hs hv ih =>
    cases h' with
    | refl => exact absurd (Nat.lt_of_le_of_lt hv.size_le hs.size_lt) (Nat.lt_irrefl _)
    | cons hs' hw =>
      obtain rfl := hs.unique hs'
      rw [ih hw]

def Heads (c : Cursor) (x : List Lexeme) : Prop := ∃ y, x = c.current.toLexeme :: y

theorem Steps.heads (h : c.Steps w d) (hx : d.Heads x) : c.Heads (w ++ x) := by
  cases h with
  | refl => exact hx
  | cons => exact ⟨_, rfl⟩

theorem heads_self (c : Cursor) (y : List Lexeme) : c.Heads (c.current.toLexeme :: y) := ⟨y, rfl⟩

end Cursor

namespace Grammar

open Cursor (Reads Fails FailsAll Refused Unfit)
open Recogniser

section Lookahead

variable {c : Cursor} {n : Nesting} {frames : List (Bracket × Mode)}

theorem isOpening_of_is {b : Bracket} (hc : c.At n)
    (h : c.current.toLexeme.Is .punctuation (.ofChars [b.opener])) :
    c.current.isOpening b.opener := by
  rw [(hc.nests.of_opener h).1]
  exact isOpening_opening _ _

theorem isClosing_of_is {b : Bracket} (hc : c.At n)
    (h : c.current.toLexeme.Is .punctuation (.ofChars [b.closer])) : c.current.isClosing := by
  obtain ⟨depth, -, hl, -⟩ := hc.nests.of_closer h
  rw [hl]
  rfl

theorem isOperator_of_is {l : Lexeme} {s : String} (h : l.Is .operator s) : l.isOperator s := by
  simp [Lexeme.isOperator, h.1, h.2]

theorem endsOperand_of_operator {l : Lexeme} (h : l.kind = .operator) : Cursor.endsOperand l := by
  simp [Cursor.endsOperand, h]

theorem endsOperand_of_closing {l : Lexeme} (h : l.isClosing) : Cursor.endsOperand l := by
  simp [Cursor.endsOperand, h]

theorem step_name (hc : c.At n) (hend : Cursor.endsOperand c.current.toLexeme)
    (hassign : ¬ c.current.isOperator "=") :
    step ⟨.name, frames⟩ c.current.terminal = step ⟨.value, frames⟩ c.current.terminal := by
  have hseen := c.current.toLexeme.seen
  generalize c.current.toLexeme.terminal = t at hseen ⊢
  cases hseen with
  | assign h => exact absurd (isOperator_of_is h) hassign
  | opening h => exact absurd hend (Cursor.not_endsOperand_of_isOpening (isOpening_of_is hc h))
  | _ => rfl

theorem step_called (hc : c.At n) (hend : Cursor.endsOperand c.current.toLexeme) :
    step ⟨.called, frames⟩ c.current.terminal = step ⟨.value, frames⟩ c.current.terminal := by
  have hseen := c.current.toLexeme.seen
  generalize c.current.toLexeme.terminal = t at hseen ⊢
  cases hseen with
  | opening h => exact absurd hend (Cursor.not_endsOperand_of_isOpening (isOpening_of_is hc h))
  | _ => rfl

theorem after_refused (hc : c.At n) (hend : ¬ Cursor.endsOperand c.current.toLexeme) :
    after frames c.current.terminal = none := by
  have hseen := c.current.toLexeme.seen
  generalize c.current.toLexeme.terminal = t at hseen ⊢
  cases hseen with
  | eof h => exact absurd (EndsSequence.endsOperand (.inr (.inl h))) hend
  | blank h => exact absurd (EndsSequence.endsOperand (.inl h)) hend
  | closing h => exact absurd (endsOperand_of_closing (isClosing_of_is hc h)) hend
  | operator h => exact absurd (endsOperand_of_operator h) hend
  | _ => rfl

theorem step_name_refused (hc : c.At n) (hassign : ¬ c.current.isOperator "=")
    (hround : ¬ c.current.isOpening '(') (hsquare : ¬ c.current.isOpening '[')
    (hend : ¬ Cursor.endsOperand c.current.toLexeme) :
    step ⟨.name, frames⟩ c.current.terminal = none := by
  have hafter : after frames c.current.terminal = none := after_refused hc hend
  have hseen := c.current.toLexeme.seen
  generalize c.current.toLexeme.terminal = t at hseen hafter ⊢
  cases hseen with
  | assign h => exact absurd (isOperator_of_is h) hassign
  | @opening b h =>
    have ho := isOpening_of_is hc h
    cases b with
    | round => exact absurd ho hround
    | square => exact absurd ho hsquare
    | curly => rfl
  | _ => exact hafter

theorem step_called_refused (hc : c.At n) (hcurly : ¬ c.current.isOpening Bracket.curly.opener)
    (hend : ¬ Cursor.endsOperand c.current.toLexeme) :
    step ⟨.called, frames⟩ c.current.terminal = none := by
  have hafter : after frames c.current.terminal = none := after_refused hc hend
  have hseen := c.current.toLexeme.seen
  generalize c.current.toLexeme.terminal = t at hseen hafter ⊢
  cases hseen with
  | @opening b h =>
    have ho := isOpening_of_is hc h
    cases b with
    | round => rfl
    | square => rfl
    | curly => exact absurd ho hcurly
  | _ => exact hafter

theorem step_command_refused (hc : c.At n) (hround : ¬ c.current.isOpening '(') :
    step ⟨.command, frames⟩ c.current.terminal = none := by
  have hseen := c.current.toLexeme.seen
  generalize c.current.toLexeme.terminal = t at hseen ⊢
  cases hseen with
  | @opening b h =>
    have ho := isOpening_of_is hc h
    cases b with
    | round => exact absurd ho hround
    | square => rfl
    | curly => rfl
  | _ => rfl

theorem step_operator_refused {l : Lexeme} (hl : l.kind = .operator)
    (hb : OpKind.ofBinary? l.raw.toString = none) :
    step ⟨.value, frames⟩ l.terminal = none := by
  by_cases ha : l.raw = .ofString "="
  · rw [Lexeme.terminal_assign hl ha]
    rfl
  · rw [Lexeme.terminal_operator hl ha, hb]
    rfl

theorem step_unfit (hc : c.At n) (h : Unfit c.current) :
    step ⟨.operand, frames⟩ c.current.terminal = none := by
  cases h with
  | operator hk hs =>
    by_cases ha : c.current.raw = .ofString "="
    · rw [Lexeme.terminal_assign hk ha]
      rfl
    · rw [Lexeme.terminal_operator hk ha, hs]
      rfl
  | punctuation hk ho =>
    rw [Lexeme.terminal, hk]
    rcases Terminal.ofBracket_cases c.current.raw with ⟨b, hb, hr⟩ | ⟨b, hb, -⟩ | hb
    · rw [hb]
      have hopening := isOpening_of_is hc ⟨hk, hr⟩
      cases b with
      | round => exact absurd hopening ho
      | square => rfl
      | curly => rfl
    · rw [hb]
      rfl
    · rw [hb]
      rfl
  | eof hk =>
    rw [Lexeme.terminal_eof hk]
    rfl
  | other hk =>
    rw [Lexeme.terminal, hk]
    rfl

theorem step_refused (hc : c.At n) (h : Refused c.current) :
    step ⟨.operand, frames⟩ c.current.terminal = none := by
  cases h with
  | numeral hk he =>
    rw [Lexeme.terminal, hk]
    cases hl : Token.literal { toLexeme := c.current.toLexeme } with
    | ok v => cases he.symm.trans (literal_congr hl rfl)
    | error e => rfl
  | keyword hk hconstant hcommand =>
    rw [Lexeme.terminal, hk, if_neg hconstant, if_neg hcommand]
    rfl
  | unfit hunfit => exact step_unfit hc hunfit

end Lookahead

/-- What was read for a part takes the recogniser from where an operand may start to where it is
over; a chain goes on from there. -/
def Passes : Part → Cursor → List Lexeme → Cursor → Prop
  | .chain _ _, _, w, d => ∀ frames x, d.Heads x →
    run ⟨.value, frames⟩ (w ++ x) = run ⟨.value, frames⟩ x
  | .delimited b, c, w, _ => c.current.isOpening b.opener → Passed (.enclosed b) w
  | _, _, w, d => ∀ frames x, d.Heads x →
    run ⟨.operand, frames⟩ (w ++ x) = run ⟨.value, frames⟩ x

theorem passes_ofTier {t : Option Tier} {c d : Cursor} {w : List Lexeme}
    (h : Passes (.ofTier t) c w d) {frames : List (Bracket × Mode)} {x : List Lexeme}
    (hx : d.Heads x) : run ⟨.operand, frames⟩ (w ++ x) = run ⟨.value, frames⟩ x := by
  cases t with
  | none => exact h frames x hx
  | some t => exact h frames x hx

theorem passes_of_reads {p : Part} {c d : Cursor} {e : Expr} {n : Nesting} (h : Reads p c e d)
    (hc : c.At n) : ∃ w, c.Steps w d ∧ Passes p c w d := by
  induction h generalizing n with
  | tier hleft _ ihl ihc =>
    obtain ⟨v, hv, hl⟩ := ihl hc
    obtain ⟨n', hm⟩ := hc.steps hv
    obtain ⟨w, hw, hchain⟩ := ihc hm
    refine ⟨v ++ w, hv.trans hw, fun frames x hx => ?_⟩
    rw [List.append_assoc, passes_ofTier hl (hw.heads hx)]
    exact hchain frames x hx
  | stop _ => exact ⟨[], .refl _, fun frames x _ => rfl⟩
  | more hk hb ht hs _ _ ihr iha =>
    obtain ⟨v, hv, hr⟩ := ihr (hc.step hs)
    obtain ⟨n', hm⟩ := (hc.step hs).steps hv
    obtain ⟨w, hw, ha⟩ := iha hm
    refine ⟨_, (Cursor.Steps.cons hs hv).trans hw, fun frames x hx => ?_⟩
    rw [List.append_assoc, List.cons_append, run_binary .value hk hb,
      passes_ofTier hr (hw.heads hx)]
    exact ha frames x hx
  | numeral hk hl hs =>
    have ht := Lexeme.terminal_numeral hk (literal_congr hl rfl)
    exact ⟨_, hs.steps, fun frames x _ => run_atom .operand ht x⟩
  | string hk hs =>
    exact ⟨_, hs.steps, fun frames x _ => run_atom .operand (Lexeme.terminal_string hk) x⟩
  | constant hk hw hs =>
    exact ⟨_, hs.steps, fun frames x _ => run_atom .operand (Lexeme.terminal_constant hk hw) x⟩
  | sign hk hsign hs _ ih =>
    obtain ⟨w, hw, ho⟩ := ih (hc.step hs)
    refine ⟨_, .cons hs hw, fun frames x hx => ?_⟩
    rw [List.cons_append, run_sign .operand hk hsign]
    exact ho frames x hx
  | group ho _ ih =>
    obtain ⟨w, hw, hd⟩ := ih hc
    exact ⟨w, hw, fun frames x _ => hd ho _ _ _ _ rfl⟩
  | name hk hs hassign hend =>
    refine ⟨_, hs.steps, fun frames x hx => ?_⟩
    obtain ⟨y, rfl⟩ := hx
    rw [List.singleton_append, run_name .operand hk, run, step_name (hc.step hs) hend hassign]
    rfl
  | assignment hk hs ho hs' _ ih =>
    obtain ⟨w, hw, hv⟩ := ih ((hc.step hs).step hs')
    refine ⟨_, .cons hs (.cons hs' hw), fun frames x hx => ?_⟩
    rw [List.cons_append, run_name .operand hk, List.cons_append, run_assign (is_of_isOperator ho)]
    exact hv frames x hx
  | call hk hs ho _ ih =>
    obtain ⟨w, hw, ha⟩ := ih (hc.step hs)
    refine ⟨_, .cons hs hw, fun frames x _ => ?_⟩
    rw [List.cons_append, run_name .operand hk]
    exact ha ho _ _ _ _ rfl
  | index hk hs ho _ ih =>
    obtain ⟨w, hw, ha⟩ := ih (hc.step hs)
    refine ⟨_, .cons hs hw, fun frames x _ => ?_⟩
    rw [List.cons_append, run_name .operand hk]
    exact ha ho _ _ _ _ rfl
  | command hk hword hor hs ho _ hend ih =>
    obtain ⟨w, hw, ha⟩ := ih (hc.step hs)
    obtain ⟨n', hd⟩ := (hc.step hs).steps hw
    refine ⟨_, .cons hs hw, fun frames x hx => ?_⟩
    obtain ⟨y, rfl⟩ := hx
    rw [List.cons_append, run_command .operand hk hword hor, ha ho _ _ _ _ rfl, run,
      step_called hd hend]
    rfl
  | block hk hword hor hs ho _ hb _ ih ih' =>
    obtain ⟨v, hv, ha⟩ := ih (hc.step hs)
    obtain ⟨n', hm⟩ := (hc.step hs).steps hv
    obtain ⟨w, hw, hbody⟩ := ih' hm
    refine ⟨_, (Cursor.Steps.cons hs hv).trans hw, fun frames x _ => ?_⟩
    rw [List.append_assoc, List.cons_append, run_command .operand hk hword hor,
      ha ho _ _ _ _ rfl]
    exact hbody hb _ _ _ _ rfl
  | blank hb hs _ ih =>
    obtain ⟨w, hw, he⟩ := ih (hc.step hs)
    refine ⟨_, .cons hs hw, fun frames x hx => ?_⟩
    rw [List.cons_append, run_blank .operand hb]
    exact he frames x hx
  | delimited hs hskip he hskip' hclose hs' _ =>
    -- What stands between brackets is derived, and the recogniser goes through derived words.
    obtain ⟨w, hw, hd⟩ := derived_of_reads (.delimited hs hskip he hskip' hclose hs')
    exact ⟨w, hw, fun ho => (hd ho).passed⟩

theorem kind_ne_operator_of_reads {c d : Cursor} {e : Expr} (h : Reads (.tier .logical) c e d) :
    d.current.kind ≠ .operator := by
  obtain ⟨u, -, hp⟩ := parses_of_reads h
  exact (hp [_] rfl).closed d.current.toLexeme.unnested rfl

theorem step_unclosed {b : Bracket} {mode : Mode} {frames : List (Bracket × Mode)} {l : Lexeme}
    (hblank : ¬ l.isBlank) (hclose : ¬ l.Is .punctuation (.ofChars [b.closer])) :
    step ⟨.closing, (b, mode) :: frames⟩ l.terminal = none ∧
      (l.kind ≠ .operator → step ⟨.value, (b, mode) :: frames⟩ l.terminal = none) := by
  have hseen := l.seen
  generalize l.terminal = t at hseen ⊢
  cases hseen with
  | blank h => exact absurd h hblank
  | @closing b' h =>
    have hne : b ≠ b' := by
      rintro rfl
      exact hclose h
    exact ⟨if_neg hne, fun _ => if_neg hne⟩
  | operator h => exact ⟨rfl, fun hk => absurd h hk⟩
  | _ => exact ⟨rfl, fun _ => rfl⟩

theorem run_unclosed {b : Bracket} {mode : Mode} {frames : List (Bracket × Mode)} {f d : Cursor}
    {w x : List Lexeme} (hw : Blanks w) (hs : f.Steps w d) (hf : f.current.kind ≠ .operator)
    (hblank : ¬ d.current.isBlank)
    (hclose : ¬ d.current.toLexeme.Is .punctuation (.ofChars [b.closer])) (hx : d.Heads x) :
    run ⟨.value, (b, mode) :: frames⟩ (w ++ x) = none := by
  obtain ⟨y, rfl⟩ := hx
  obtain ⟨hclosing, hvalue⟩ : step ⟨.closing, (b, mode) :: frames⟩ d.current.terminal = none ∧ _ :=
    step_unclosed hblank hclose
  cases hs with
  | refl => exact run_refused (hvalue hf) y
  | cons hstep hs =>
    obtain ⟨hl, hw⟩ := List.forall_mem_cons.1 hw
    rw [run_last_blanks .value hl hw]
    exact run_refused hclosing y

/-- The recogniser stops where a part of the parser fails. -/
def Rejects : Part → Cursor → List Lexeme → Cursor → Prop
  | .chain _ _, _, u, d => ∀ frames x, d.Heads x → run ⟨.value, frames⟩ (u ++ x) = none
  | .delimited b, c, u, d => c.current.isOpening b.opener → ∀ r mode frames x, d.Heads x →
    step r (.opening b) = some ⟨.operand, (b, mode) :: frames⟩ → run r (u ++ x) = none
  | _, _, u, d => ∀ frames x, d.Heads x → run ⟨.operand, frames⟩ (u ++ x) = none

theorem rejects_ofTier {t : Option Tier} {c d : Cursor} {u : List Lexeme}
    (h : Rejects (.ofTier t) c u d) {frames : List (Bracket × Mode)} {x : List Lexeme}
    (hx : d.Heads x) : run ⟨.operand, frames⟩ (u ++ x) = none := by
  cases t with
  | none => exact h frames x hx
  | some t => exact h frames x hx

theorem rejects_of_fails {p : Part} {c d : Cursor} {n : Nesting} (h : Fails p c d)
    (hc : c.At n) : ∃ u, c.Steps u d ∧ Rejects p c u d := by
  induction h generalizing n with
  | first _ ih =>
    obtain ⟨u, hu, hr⟩ := ih hc
    exact ⟨u, hu, fun frames x hx => rejects_ofTier hr hx⟩
  | chain hleft _ ih =>
    obtain ⟨v, hv, hl⟩ := passes_of_reads hleft hc
    obtain ⟨n', hm⟩ := hc.steps hv
    obtain ⟨u, hu, hr⟩ := ih hm
    refine ⟨v ++ u, hv.trans hu, fun frames x hx => ?_⟩
    rw [List.append_assoc, passes_ofTier hl (hu.heads hx)]
    exact hr frames x hx
  | operator hk hb =>
    refine ⟨[], .refl _, fun frames x hx => ?_⟩
    obtain ⟨y, rfl⟩ := hx
    exact run_refused (step_operator_refused hk hb) y
  | operand hk hb ht hs _ ih =>
    obtain ⟨u, hu, hr⟩ := ih (hc.step hs)
    refine ⟨_, .cons hs hu, fun frames x hx => ?_⟩
    rw [List.cons_append, run_binary .value hk hb]
    exact rejects_ofTier hr hx
  | rest hk hb ht hs hright _ ih =>
    obtain ⟨v, hv, hr⟩ := passes_of_reads hright (hc.step hs)
    obtain ⟨n', hm⟩ := (hc.step hs).steps hv
    obtain ⟨u, hu, hrest⟩ := ih hm
    refine ⟨_, (Cursor.Steps.cons hs hv).trans hu, fun frames x hx => ?_⟩
    rw [List.append_assoc, List.cons_append, run_binary .value hk hb,
      passes_ofTier hr (hu.heads hx)]
    exact hrest frames x hx
  | refused h =>
    refine ⟨[], .refl _, fun frames x hx => ?_⟩
    obtain ⟨y, rfl⟩ := hx
    exact run_refused (step_refused hc h) y
  | sign hk hsign hs _ ih =>
    obtain ⟨u, hu, hr⟩ := ih (hc.step hs)
    refine ⟨_, .cons hs hu, fun frames x hx => ?_⟩
    rw [List.cons_append, run_sign .operand hk hsign]
    exact hr frames x hx
  | group ho _ ih =>
    obtain ⟨u, hu, hr⟩ := ih hc
    exact ⟨u, hu, fun frames x hx => hr ho _ _ _ x hx rfl⟩
  | name hk hs hassign hround hsquare hend =>
    refine ⟨_, hs.steps, fun frames x hx => ?_⟩
    obtain ⟨y, rfl⟩ := hx
    rw [List.singleton_append, run_name .operand hk]
    exact run_refused (step_name_refused (hc.step hs) hassign hround hsquare hend) y
  | assignment hk hs ho hs' _ ih =>
    obtain ⟨u, hu, hr⟩ := ih ((hc.step hs).step hs')
    refine ⟨_, .cons hs (.cons hs' hu), fun frames x hx => ?_⟩
    rw [List.cons_append, run_name .operand hk, List.cons_append, run_assign (is_of_isOperator ho)]
    exact hr frames x hx
  | call hk hs ho _ ih =>
    obtain ⟨u, hu, hr⟩ := ih (hc.step hs)
    refine ⟨_, .cons hs hu, fun frames x hx => ?_⟩
    rw [List.cons_append, run_name .operand hk]
    exact hr ho _ _ _ x hx rfl
  | index hk hs ho _ ih =>
    obtain ⟨u, hu, hr⟩ := ih (hc.step hs)
    refine ⟨_, .cons hs hu, fun frames x hx => ?_⟩
    rw [List.cons_append, run_name .operand hk]
    exact hr ho _ _ _ x hx rfl
  | command hk hword hor hs ho =>
    refine ⟨_, hs.steps, fun frames x hx => ?_⟩
    obtain ⟨y, rfl⟩ := hx
    rw [List.singleton_append, run_command .operand hk hword hor]
    exact run_refused (step_command_refused (hc.step hs) ho) y
  | argument hk hword hor hs ho _ ih =>
    obtain ⟨u, hu, hr⟩ := ih (hc.step hs)
    refine ⟨_, .cons hs hu, fun frames x hx => ?_⟩
    rw [List.cons_append, run_command .operand hk hword hor]
    exact hr ho _ _ _ x hx rfl
  | called hk hword hor hs ho ha hend hblock =>
    obtain ⟨w, hw, hp⟩ := passes_of_reads ha (hc.step hs)
    obtain ⟨n', hd⟩ := (hc.step hs).steps hw
    refine ⟨_, .cons hs hw, fun frames x hx => ?_⟩
    obtain ⟨y, rfl⟩ := hx
    rw [List.cons_append, run_command .operand hk hword hor, hp ho _ _ _ _ rfl]
    exact run_refused (step_called_refused hd hblock hend) y
  | block hk hword hor hs ho ha hb _ ih =>
    obtain ⟨v, hv, hp⟩ := passes_of_reads ha (hc.step hs)
    obtain ⟨n', hm⟩ := (hc.step hs).steps hv
    obtain ⟨u, hu, hr⟩ := ih hm
    refine ⟨_, (Cursor.Steps.cons hs hv).trans hu, fun frames x hx => ?_⟩
    rw [List.append_assoc, List.cons_append, run_command .operand hk hword hor,
      hp ho _ _ _ _ rfl]
    exact hr hb _ _ _ x hx rfl
  | blank hb hs _ ih =>
    obtain ⟨u, hu, hr⟩ := ih (hc.step hs)
    refine ⟨_, .cons hs hu, fun frames x hx => ?_⟩
    rw [List.cons_append, run_blank .operand hb]
    exact hr frames x hx
  | inside hs hskip _ ih =>
    obtain ⟨⟨v, hv, hsteps⟩, -⟩ := hskip
    obtain ⟨n', ha⟩ := (hc.step hs).steps hsteps
    obtain ⟨u, hu, hr⟩ := ih ha
    refine ⟨_, (Cursor.Steps.cons hs hsteps).trans hu, fun ho r mode frames x hx hstep => ?_⟩
    rw [← Lexeme.terminal_opening (is_of_isOpening ho)] at hstep
    rw [List.append_assoc, List.cons_append, run_cons hstep, run_blanks .operand hv]
    exact hr _ x hx
  | @unclosed b c m a f d e hs hskip he hskip' hne =>
    obtain ⟨⟨u, hu, hsteps⟩, -⟩ := hskip
    obtain ⟨⟨w, hw, hsteps'⟩, hblank⟩ := hskip'
    obtain ⟨n', ha⟩ := (hc.step hs).steps hsteps
    obtain ⟨v, hv, hp⟩ := passes_of_reads he ha
    refine ⟨_, ((Cursor.Steps.cons hs hsteps).trans hv).trans hsteps',
      fun ho r mode frames x hx hstep => ?_⟩
    have hclose : ¬ d.current.toLexeme.Is .punctuation (.ofChars [b.closer]) := by
      intro hd
      obtain ⟨v', hv', hderived⟩ := derived_of_reads he
      have hinner := ((Balanced.blanks hu).append (Derives.balanced hderived)).append (.blanks hw)
      exact hne (hinner.closes hc (is_of_isOpening ho) hs ((hsteps.trans hv').trans hsteps') hd).1
    have hf := kind_ne_operator_of_reads he
    rw [← Lexeme.terminal_opening (is_of_isOpening ho)] at hstep
    rw [List.append_assoc, List.append_assoc, List.cons_append, run_cons hstep,
      run_blanks .operand hu, hp _ _ (hsteps'.heads hx)]
    exact run_unclosed hw hsteps' hf hblank hclose hx

/-- What was read before a part failed can be completed. -/
def Completes : Part → Cursor → List Lexeme → Prop
  | .factor, _, u => ∃ v e, Derives .factor (u ++ v) e
  | .tier t, _, u => ∃ v e, Derives (.tier t) (u ++ v) e
  | .chain t left, _, u => ∀ w, Derives (.tier t) w left →
    ∃ v e, Derives (.tier t) (w ++ u ++ v) e
  | .delimited b, c, u => c.current.isOpening b.opener → ∃ v e, Derives (.enclosed b) (u ++ v) e

theorem completes_operand {t : Tier} {c : Cursor} {u : List Lexeme}
    (h : Completes (.ofTier t.tighter) c u) : ∃ v e, Derives (.operand t) (u ++ v) e := by
  cases t with
  | logical => exact h
  | expression => exact h
  | term => exact h

theorem derives_zero : Derives .factor [.numeral ['0'] false] (.literal (.integer 0)) :=
  .numeral rfl rfl

theorem derives_logical {w : List Lexeme} {e : Expr} (h : Derives .factor w e) :
    Derives (.tier .logical) w e := .operand (.operand (.operand h))

theorem Derives.enclose {b : Bracket} {l : Lexeme} {u w : List Lexeme} {e : Expr}
    (hl : l.isOpening b.opener) (hu : Blanks u) (h : Derives (.tier .logical) w e) :
    Derives (.enclosed b) (l :: u ++ w ++ [.closing b.closer 0]) e := by
  have hd := Derives.enclosed (w := []) (is_of_isOpening hl) hu h (List.forall_mem_nil _)
    (is_of_closing (rfl : Lexeme.closing b.closer 0 = _))
  rwa [List.append_nil] at hd

theorem completes_of_fails {p : Part} {c d : Cursor} (h : Fails p c d) :
    ∃ u, c.Steps u d ∧ Completes p c u := by
  induction h with
  | first _ ih =>
    obtain ⟨u, hu, hc⟩ := ih
    obtain ⟨v, e, hd⟩ := completes_operand hc
    exact ⟨u, hu, v, e, .operand hd⟩
  | chain hleft _ ih =>
    obtain ⟨w, hw, hl⟩ := derived_of_reads hleft
    obtain ⟨u, hu, hc⟩ := ih
    exact ⟨w ++ u, hw.trans hu, hc w (.operand (derived_operand hl))⟩
  | @operator c left hk hb =>
    refine ⟨[], .refl _, fun w hw => ⟨[], left, ?_⟩⟩
    rw [List.append_nil, List.append_nil]
    exact hw
  | @operand t c m d k left hk hb ht hs _ ih =>
    obtain ⟨u, hu, hc⟩ := ih
    obtain ⟨v, e, hd⟩ := completes_operand hc
    refine ⟨_, .cons hs hu, fun w hw => ⟨v, .binary k left e, ?_⟩⟩
    have hop : (c.current.raw.toString, k) ∈ operators t := mem_operators.2 ⟨hb, ht⟩
    rw [List.append_assoc]
    exact .binary hw hop ⟨hk, raw_of_symbol (.inr ⟨t, hop⟩)⟩ hd
  | @rest t c m e d k left right hk hb ht hs hright _ ih =>
    obtain ⟨x, hx, hr⟩ := derived_of_reads hright
    obtain ⟨u, hu, hc⟩ := ih
    refine ⟨_, (Cursor.Steps.cons hs hx).trans hu, fun w hw => ?_⟩
    have hop : (c.current.raw.toString, k) ∈ operators t := mem_operators.2 ⟨hb, ht⟩
    have hbin := hc _ (.binary hw hop ⟨hk, raw_of_symbol (.inr ⟨t, hop⟩)⟩ (derived_operand hr))
    simpa using hbin
  | refused => exact ⟨[], .refl _, _, _, derives_zero⟩
  | @sign c m d k hk hsign hs _ ih =>
    obtain ⟨u, hu, v, e, hd⟩ := ih
    have hmem : (c.current.raw.toString, k) ∈ signs := mem_signs.2 hsign
    exact ⟨_, .cons hs hu, v, _, .sign hmem ⟨hk, raw_of_symbol (.inl hmem)⟩ hd⟩
  | group ho _ ih =>
    obtain ⟨u, hu, hc⟩ := ih
    obtain ⟨v, e, hd⟩ := hc ho
    exact ⟨u, hu, v, e, .group hd⟩
  | name hk hs => exact ⟨_, hs.steps, [], _, .name hk⟩
  | assignment hk hs ho hs' _ ih =>
    obtain ⟨u, hu, v, e, hd⟩ := ih
    exact ⟨_, .cons hs (.cons hs' hu), v, _, .assignment hk (is_of_isOperator ho) hd⟩
  | call hk hs ho _ ih =>
    obtain ⟨u, hu, hc⟩ := ih
    obtain ⟨v, e, hd⟩ := hc ho
    exact ⟨_, .cons hs hu, v, _, .call hk hd⟩
  | index hk hs ho _ ih =>
    obtain ⟨u, hu, hc⟩ := ih
    obtain ⟨v, e, hd⟩ := hc ho
    exact ⟨_, .cons hs hu, v, _, .index hk hd⟩
  | command hk hword hor hs =>
    have harg := Derives.enclose (b := .round) (u := []) (isOpening_opening '(' 0)
      (List.forall_mem_nil _) (derives_logical derives_zero)
    exact ⟨_, hs.steps, _, _, .command hor ⟨hk, is_of_word hword hor⟩ harg⟩
  | argument hk hword hor hs ho _ ih =>
    obtain ⟨u, hu, hc⟩ := ih
    obtain ⟨v, e, hd⟩ := hc ho
    exact ⟨_, .cons hs hu, v, _, .command hor ⟨hk, is_of_word hword hor⟩ hd⟩
  | called hk hword hor hs ho ha =>
    obtain ⟨w, hw, hd⟩ := derived_of_reads ha
    have hcommand := Derives.command hor ⟨hk, is_of_word hword hor⟩ (hd ho)
    rw [← List.append_nil (_ :: w)] at hcommand
    exact ⟨_, .cons hs hw, [], _, hcommand⟩
  | block hk hword hor hs ho ha hb _ ih =>
    obtain ⟨w, hw, hd⟩ := derived_of_reads ha
    obtain ⟨u, hu, hc⟩ := ih
    obtain ⟨v, e, hbody⟩ := hc hb
    have hblock := Derives.block hor ⟨hk, is_of_word hword hor⟩ (hd ho) hbody
    rw [← List.append_assoc] at hblock
    exact ⟨_, (Cursor.Steps.cons hs hw).trans hu, v, _, hblock⟩
  | blank hb hs _ ih =>
    obtain ⟨u, hu, v, e, hd⟩ := ih
    exact ⟨_, .cons hs hu, v, e, .blank hb hd⟩
  | @inside b _ _ _ _ hs hskip _ ih =>
    obtain ⟨⟨w, hw, hsteps⟩, -⟩ := hskip
    obtain ⟨u, hu, v, e, hd⟩ := ih
    refine ⟨_, (Cursor.Steps.cons hs hsteps).trans hu, fun ho => ?_⟩
    refine ⟨v ++ [.closing b.closer 0], e, ?_⟩
    have henclosed := Derives.enclose ho hw hd
    simpa using henclosed
  | @unclosed b _ _ _ _ _ e hs hskip he hskip' _ =>
    obtain ⟨⟨u, hu, hsteps⟩, -⟩ := hskip
    obtain ⟨⟨w, hw, hsteps'⟩, -⟩ := hskip'
    obtain ⟨v, hv, hd⟩ := derived_of_reads he
    refine ⟨_, ((Cursor.Steps.cons hs hsteps).trans hv).trans hsteps',
      fun ho => ⟨[.closing b.closer 0], e, ?_⟩⟩
    exact .enclosed (is_of_isOpening ho) hu hd hw (is_of_closing rfl)

theorem kind_ne_of_failsAll {c d : Cursor} (h : FailsAll c d) : c.current.kind ≠ .eof := by
  have skipped {c a : Cursor} (hskip : c.Skips a) (ha : a.current.kind ≠ .eof) :
      c.current.kind ≠ .eof := by
    obtain ⟨⟨u, -, hsteps⟩, -⟩ := hskip
    cases hsteps with
    | refl => exact ha
    | cons hs => exact hs.1
  cases h with
  | inside hskip ha => exact skipped hskip ha
  | unended hskip ha => exact skipped hskip ha
  | later hskip ha => exact skipped hskip ha

/-- Blanks, and statements that go on behind what was read. The blanks in front are kept apart,
because they end the statement before them. -/
theorem completes_of_failsAll {c d : Cursor} (h : FailsAll c d) :
    ∃ u v w x es, c.Steps u d ∧ u ++ x = v ++ w ∧ Blanks v ∧ (c.current.isBlank → v ≠ []) ∧
      DerivesAll w es := by
  have front {c a : Cursor} {v : List Lexeme} (hsteps : c.Steps v a) (ha : ¬ a.current.isBlank) :
      c.current.isBlank → v ≠ [] := by
    rintro hb rfl
    obtain rfl := Cursor.steps_nil.1 hsteps
    exact ha hb
  induction h with
  | inside hskip _ hfails =>
    obtain ⟨⟨v, hv, hsteps⟩, ha⟩ := hskip
    obtain ⟨u, hu, x, e, hd⟩ := completes_of_fails hfails
    exact ⟨v ++ u, v, u ++ x, x, [e], hsteps.trans hu, List.append_assoc _ _ _, hv,
      front hsteps ha, .one hd⟩
  | unended hskip _ he _ =>
    obtain ⟨⟨v, hv, hsteps⟩, ha⟩ := hskip
    obtain ⟨w, hw, hd⟩ := derived_of_reads he
    exact ⟨v ++ w, v, w, [], _, hsteps.trans hw, List.append_nil _, hv, front hsteps ha, .one hd⟩
  | @later c a f d e hskip _ he hend hfails ih =>
    obtain ⟨⟨v, hv, hsteps⟩, ha⟩ := hskip
    obtain ⟨w, hw, hd⟩ := derived_of_reads he
    obtain ⟨u, v', w', x, es, hu, hsplit, hv', hne, hall⟩ := ih
    have hf : f.current.isBlank :=
      (endsStatement_iff.1 hend).resolve_right (kind_ne_of_failsAll hfails)
    obtain ⟨l, v', rfl⟩ := List.exists_cons_of_ne_nil (hne hf)
    obtain ⟨hl, hv'⟩ := List.forall_mem_cons.1 hv'
    refine ⟨v ++ w ++ u, v, w ++ l :: v' ++ w', x, _, (hsteps.trans hw).trans hu, ?_, hv,
      front hsteps ha, .cons hd hl hv' hall⟩
    rw [List.append_assoc, hsplit]
    simp

section Statement

variable {c : Cursor} {x : List Lexeme}

theorem run_statement (hblank : ¬ c.current.isBlank) (hk : c.current.kind ≠ .eof)
    (hx : c.Heads x) : run ⟨.statement, []⟩ x = run ⟨.operand, []⟩ x := by
  obtain ⟨y, rfl⟩ := hx
  have hstep : step ⟨.statement, []⟩ c.current.terminal =
      step ⟨.operand, []⟩ c.current.terminal := by
    have hseen := c.current.toLexeme.seen
    generalize c.current.toLexeme.terminal = t at hseen ⊢
    cases hseen with
    | eof h => exact absurd h hk
    | blank h => exact absurd h hblank
    | _ => rfl
  rw [run, run, hstep]

theorem run_ended (hend : endsStatement c.current.toLexeme) (hx : c.Heads x) :
    run ⟨.value, []⟩ x = run ⟨.statement, []⟩ x := by
  obtain ⟨y, rfl⟩ := hx
  rcases endsStatement_iff.1 hend with h | h
  · rw [run, run, Lexeme.terminal_blank h]
    rfl
  · rw [run, run, Lexeme.terminal_eof h]
    rfl

theorem step_unended {l : Lexeme} (hk : l.kind ≠ .operator) (hend : ¬ endsStatement l) :
    step ⟨.value, []⟩ l.terminal = none := by
  have hseen := l.seen
  generalize l.terminal = t at hseen ⊢
  cases hseen with
  | eof h => exact absurd (endsStatement_iff.2 (.inr h)) hend
  | blank h => exact absurd (endsStatement_iff.2 (.inl h)) hend
  | operator h => exact absurd h hk
  | _ => rfl

end Statement

theorem rejects_of_failsAll {c d : Cursor} {n : Nesting} (h : FailsAll c d) (hc : c.At n) :
    ∃ u, c.Steps u d ∧ ∀ x, d.Heads x → run ⟨.statement, []⟩ (u ++ x) = none := by
  induction h generalizing n with
  | inside hskip hk hfails =>
    obtain ⟨⟨v, hv, hsteps⟩, hblank⟩ := hskip
    obtain ⟨n', ha⟩ := hc.steps hsteps
    obtain ⟨u, hu, hr⟩ := rejects_of_fails hfails ha
    refine ⟨v ++ u, hsteps.trans hu, fun x hx => ?_⟩
    rw [List.append_assoc, run_blanks .statement hv, run_statement hblank hk (hu.heads hx)]
    exact hr [] x hx
  | unended hskip hk he hend =>
    obtain ⟨⟨v, hv, hsteps⟩, hblank⟩ := hskip
    obtain ⟨n', ha⟩ := hc.steps hsteps
    obtain ⟨w, hw, hp⟩ := passes_of_reads he ha
    refine ⟨v ++ w, hsteps.trans hw, fun x hx => ?_⟩
    rw [List.append_assoc, run_blanks .statement hv, run_statement hblank hk (hw.heads hx),
      hp [] x hx]
    obtain ⟨y, rfl⟩ := hx
    exact run_refused (step_unended (kind_ne_operator_of_reads he) hend) y
  | later hskip hk he hend _ ih =>
    obtain ⟨⟨v, hv, hsteps⟩, hblank⟩ := hskip
    obtain ⟨n', ha⟩ := hc.steps hsteps
    obtain ⟨w, hw, hp⟩ := passes_of_reads he ha
    obtain ⟨n'', hf⟩ := ha.steps hw
    obtain ⟨u, hu, hr⟩ := ih hf
    refine ⟨v ++ w ++ u, (hsteps.trans hw).trans hu, fun x hx => ?_⟩
    have hx' := hu.heads hx
    rw [List.append_assoc, List.append_assoc, run_blanks .statement hv,
      run_statement hblank hk (hw.heads hx'), hp [] _ hx', run_ended hend hx']
    exact hr x hx

/-- What was read before a grammar error begins a program, and with the token there it does not. -/
theorem viable_of_failsAll {c d : Cursor} {n : Nesting} (h : FailsAll c d) (hc : c.At n) :
    ∃ u, c.Steps u d ∧ Viable u ∧ ¬ Viable (u ++ [d.current.toLexeme]) := by
  obtain ⟨u, v, w, x, es, hu, hsplit, hv, -, hall⟩ := completes_of_failsAll h
  obtain ⟨u', hu', hr⟩ := rejects_of_failsAll h hc
  obtain rfl := hu.unique hu'
  refine ⟨u, hu, ⟨u, x ++ [.eof], es, rfl, ?_⟩, fun hviable => ?_⟩
  · have hprogram := DerivesProgram.statements (w := []) (l := .eof) hv hall
      (List.forall_mem_nil _) rfl
    rw [List.append_nil, ← hsplit] at hprogram
    rwa [← List.append_assoc]
  · have hpassed := hviable.passed
    rw [hr _ (d.heads_self [])] at hpassed
    cases hpassed

end Grammar

theorem Scanner.run_split {s : Scanner} {c d : Cursor} {w : List Lexeme} (h : c.Steps w d)
    (hs : s.next = (.ok c.current, c.lexer.scanner)) (hp : c.lexer.peeked = none) :
    ∃ u v, s.run.1 = u ++ d.current :: v ∧ u.map (·.toLexeme) = w := by
  induction h generalizing s with
  | refl c =>
    by_cases hk : c.current.kind = .eof
    · exact ⟨[], [], by rw [run_eof hs hk]; rfl, rfl⟩
    · exact ⟨[], _, by rw [run_cons hs hk rfl]; rfl, rfl⟩
  | @cons c _ _ w hstep _ ih =>
    obtain ⟨hn, hp'⟩ := hstep.scanner hp
    obtain ⟨u, v, hrun, hu⟩ := ih hn hp'
    refine ⟨c.current :: u, v, ?_, by rw [List.map_cons, hu]⟩
    rw [run_cons hs hstep.1 rfl, hrun]
    rfl

theorem before_unique {source : List Char} {t : Token} {u v u' v' : List Token}
    (h : (lex source).1 = u ++ t :: v) (h' : (lex source).1 = u' ++ t :: v') : u = u' := by
  have hpair := Scanner.run_pairwise { rest := source }
  change (lex source).1.Pairwise _ at hpair
  rw [h] at hpair
  obtain ⟨-, hback, hfront⟩ := List.pairwise_append.1 hpair
  have hbefore : t ∉ u := fun ht =>
    absurd (hfront t ht t List.mem_cons_self) (Int.lt_irrefl _)
  have hafter : t ∉ v := fun ht => absurd (List.rel_of_pairwise_cons hback ht) (Int.lt_irrefl _)
  exact ((List.append_cons_inj_of_notMem hbefore hafter).1 (h.symm.trans h')).1

/-- A grammar error stands at a token of the source. The tokens before it begin a program, and
together with it they do not. -/
theorem Program.parse_error_viable {source : List Char} {error : ParseError}
    (h : Program.parse source = .error error) (hl : error.fault ≠ .lexical) :
    error.found ∈ (lex source).1 ∧ error.pos = error.found.pos ∧
      ∀ before after, (lex source).1 = before ++ error.found :: after →
        Grammar.Viable (before.map (·.toLexeme)) ∧
        ¬ Grammar.Viable ((before ++ [error.found]).map (·.toLexeme)) := by
  obtain ⟨c, d, ⟨hpeek, hnext⟩, hfails, hfound, hpos⟩ := Program.parse_eq_error h hl
  obtain ⟨w, hw, hviable, hnot⟩ :=
    Grammar.viable_of_failsAll hfails ⟨hpeek, Scanner.next_nests hnext⟩
  obtain ⟨u, v, hrun, rfl⟩ := Scanner.run_split hw hnext hpeek
  rw [hfound]
  have hlex : (lex source).1 = u ++ d.current :: v := hrun
  refine ⟨by rw [hlex]; exact List.mem_append_right _ List.mem_cons_self, hpos, ?_⟩
  intro before after hsplit
  obtain rfl := before_unique hlex hsplit
  rw [List.map_append]
  exact ⟨hviable, hnot⟩

/-- Inside a call an operand is missing. -/
theorem Program.parse_error_viable_operand :
    Grammar.Viable [.plain .identifier ['f'], .opening '(' 0, .plain .identifier ['a'],
        .plain .operator ['+']] ∧
      ¬ Grammar.Viable [.plain .identifier ['f'], .opening '(' 0, .plain .identifier ['a'],
        .plain .operator ['+'], .closing ')' 0] := by
  have hparse : Program.parse "f(a + )".toList = .error
      { fault := .factor, production := "factor", expected := "an operand",
        found := { Lexeme.closing ')' 0 with pos := ⟨1, 7, 6⟩ }, pos := ⟨1, 7, 6⟩ } := by
    cbv
  have hlex : (lex "f(a + )".toList).1 =
      [{ Lexeme.plain .identifier ['f'] with pos := ⟨1, 1, 0⟩ },
        { Lexeme.opening '(' 0 with pos := ⟨1, 2, 1⟩ },
        { Lexeme.plain .identifier ['a'] with pos := ⟨1, 3, 2⟩ },
        { Lexeme.plain .operator ['+'] with pos := ⟨1, 5, 4⟩ }] ++
        { Lexeme.closing ')' 0 with pos := ⟨1, 7, 6⟩ } ::
        [{ Lexeme.eof with pos := ⟨1, 8, 7⟩ }] := by decide +kernel
  exact (parse_error_viable hparse (by decide)).2.2 _ _ hlex

end Reckon
