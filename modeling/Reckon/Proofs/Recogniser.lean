import Reckon.Proofs.Words

namespace Reckon

/-- What the grammar sees of a lexeme. An operator may be binary, a sign, or both. -/
inductive Terminal where
  | eof
  | blank
  | atom
  | name
  | command
  | opening (b : Bracket)
  | closing (b : Bracket)
  | operator (binary sign : Bool)
  | assign
  | other

def Terminal.ofBracket : Text → Terminal
  | [.char c] =>
    match Bracket.ofOpener? c, Bracket.ofCloser? c with
    | some b, _ => .opening b
    | none, some b => .closing b
    | none, none => .other
  | _ => .other

theorem Terminal.ofBracket_cases (raw : Text) :
    (∃ b, ofBracket raw = .opening b ∧ raw = .ofChars [b.opener]) ∨
      (∃ b, ofBracket raw = .closing b ∧ raw = .ofChars [b.closer]) ∨ ofBracket raw = .other := by
  unfold ofBracket
  split
  · split
    case h_1 hb =>
      obtain rfl := Bracket.opener_of_ofOpener? hb
      exact .inl ⟨_, rfl, rfl⟩
    case h_2 hb =>
      obtain rfl := Bracket.closer_of_ofCloser? hb
      exact .inr (.inl ⟨_, rfl, rfl⟩)
    · exact .inr (.inr rfl)
  · exact .inr (.inr rfl)

def Lexeme.terminal (l : Lexeme) : Terminal :=
  match l.kind with
  | .eof => .eof
  | .eol | .comment => .blank
  | .numeric =>
    match Token.literal { toLexeme := l } with
    | .ok _ => .atom
    | .error _ => .other
  | .string => .atom
  | .identifier => .name
  | .keyword =>
    if l.raw.toString = "true" ∨ l.raw.toString = "false" then .atom
    else if l.raw.toString = "print" ∨ l.raw.toString = "if" then .command
    else .other
  | .operator =>
    if l.raw = .ofString "=" then .assign
    else
      .operator (OpKind.ofBinary? l.raw.toString).isSome (OpKind.ofSign? l.raw.toString).isSome
  | .punctuation => .ofBracket l.raw
  | .other _ => .other

/-- What may come next: a statement, an operand, what follows a name, a keyword or its argument,
what follows an operand, the closing bracket, or nothing. -/
inductive Mode where
  | statement
  | operand
  | name
  | command
  | called
  | value
  | closing
  | ended

/-- What may come next, and for each open bracket what may come after it is closed. -/
structure Recogniser where
  mode : Mode
  frames : List (Bracket × Mode) := []

namespace Recogniser

def start (frames : List (Bracket × Mode)) : Terminal → Option Recogniser
  | .atom => some ⟨.value, frames⟩
  | .name => some ⟨.name, frames⟩
  | .command => some ⟨.command, frames⟩
  | .opening .round => some ⟨.operand, (.round, .value) :: frames⟩
  | .operator _ true => some ⟨.operand, frames⟩
  | _ => none

def close (b : Bracket) : List (Bracket × Mode) → Option Recogniser
  | (b', mode) :: frames => if b' = b then some ⟨mode, frames⟩ else none
  | [] => none

/-- An operand is over. Inside brackets a blank leaves only the closing bracket. -/
def after (frames : List (Bracket × Mode)) : Terminal → Option Recogniser
  | .operator true _ => some ⟨.operand, frames⟩
  | .blank =>
    match frames with
    | [] => some ⟨.statement, []⟩
    | frames => some ⟨.closing, frames⟩
  | .eof =>
    match frames with
    | [] => some ⟨.ended, []⟩
    | _ => none
  | .closing b => close b frames
  | _ => none

def step (r : Recogniser) (t : Terminal) : Option Recogniser :=
  match r.mode with
  | .statement =>
    match t with
    | .blank => some r
    | .eof => some ⟨.ended, r.frames⟩
    | t => start r.frames t
  | .operand =>
    match t with
    | .blank => some r
    | t => start r.frames t
  | .name =>
    match t with
    | .assign => some ⟨.operand, r.frames⟩
    | .opening .round => some ⟨.operand, (.round, .value) :: r.frames⟩
    | .opening .square => some ⟨.operand, (.square, .value) :: r.frames⟩
    | t => after r.frames t
  | .command =>
    match t with
    | .opening .round => some ⟨.operand, (.round, .called) :: r.frames⟩
    | _ => none
  | .called =>
    match t with
    | .opening .curly => some ⟨.operand, (.curly, .value) :: r.frames⟩
    | t => after r.frames t
  | .value => after r.frames t
  | .closing =>
    match t with
    | .blank => some r
    | .closing b => close b r.frames
    | _ => none
  | .ended => none

def run (r : Recogniser) : List Lexeme → Option Recogniser
  | [] => some r
  | l :: w => (r.step l.terminal).bind (·.run w)

theorem run_append (r : Recogniser) (v w : List Lexeme) :
    r.run (v ++ w) = (r.run v).bind (·.run w) := by
  induction v generalizing r with
  | nil => rfl
  | cons l v ih =>
    rw [List.cons_append, run, run]
    cases r.step l.terminal with
    | none => rfl
    | some r' => exact ih r'

theorem run_cons {r r' : Recogniser} {l : Lexeme} (h : r.step l.terminal = some r')
    (w : List Lexeme) : r.run (l :: w) = r'.run w := by
  rw [run, h, Option.bind_some]

theorem run_refused {r : Recogniser} {l : Lexeme} (h : r.step l.terminal = none)
    (w : List Lexeme) : r.run (l :: w) = none := by
  rw [run, h, Option.bind_none]

end Recogniser

namespace Lexeme

variable {l : Lexeme}

theorem terminal_eof (h : l.kind = .eof) : l.terminal = .eof := by
  rw [terminal, h]

theorem terminal_blank (h : l.isBlank) : l.terminal = .blank := by
  rcases Cursor.kind_of_isBlank h with h | h <;> rw [terminal, h]

theorem terminal_numeral {v : Literal} (h : l.kind = .numeric)
    (hv : Token.literal { toLexeme := l } = .ok v) : l.terminal = .atom := by
  rw [terminal, h, hv]

theorem terminal_string (h : l.kind = .string) : l.terminal = .atom := by
  rw [terminal, h]

theorem terminal_name (h : l.kind = .identifier) : l.terminal = .name := by
  rw [terminal, h]

theorem terminal_constant {b : Bool} (h : l.kind = .keyword)
    (hb : l.raw.toString = if b then "true" else "false") : l.terminal = .atom := by
  rw [terminal, h]
  cases b with
  | true => exact if_pos (.inl hb)
  | false => exact if_pos (.inr hb)

theorem terminal_command {word : String} (h : l.kind = .keyword) (hw : l.raw.toString = word)
    (hword : word = "print" ∨ word = "if") : l.terminal = .command := by
  subst hw
  rw [terminal, h]
  exact (if_neg (Cursor.not_constant hword)).trans (if_pos hword)

theorem terminal_operator (h : l.kind = .operator) (ha : l.raw ≠ .ofString "=") :
    l.terminal = .operator (OpKind.ofBinary? l.raw.toString).isSome
      (OpKind.ofSign? l.raw.toString).isSome := by
  rw [terminal, h]
  exact if_neg ha

theorem terminal_assign (h : l.kind = .operator) (ha : l.raw = .ofString "=") :
    l.terminal = .assign := by
  rw [terminal, h]
  exact if_pos ha

theorem ne_assign_of_binary {k : OpKind} (h : OpKind.ofBinary? l.raw.toString = some k) :
    l.raw ≠ .ofString "=" := by
  intro ha
  have hnone : OpKind.ofBinary? "=" = none := by decide
  rw [ha, Text.toString_ofString, hnone] at h
  cases h

theorem terminal_binary {k : OpKind} (h : l.kind = .operator)
    (hb : OpKind.ofBinary? l.raw.toString = some k) : ∃ sign, l.terminal = .operator true sign := by
  rw [terminal_operator h (ne_assign_of_binary hb), hb]
  exact ⟨_, rfl⟩

theorem terminal_sign {k : OpKind} (h : l.kind = .operator)
    (hs : OpKind.ofSign? l.raw.toString = some k) :
    ∃ binary, l.terminal = .operator binary true := by
  have ha : l.raw ≠ .ofString "=" := by
    intro ha
    have hnone : OpKind.ofSign? "=" = none := by decide
    rw [ha, Text.toString_ofString, hnone] at hs
    cases hs
  rw [terminal_operator h ha, hs]
  exact ⟨_, rfl⟩

theorem terminal_opening {b : Bracket} (h : l.Is .punctuation (.ofChars [b.opener])) :
    l.terminal = .opening b := by
  rw [terminal, h.1, h.2]
  cases b <;> rfl

theorem terminal_closing {b : Bracket} (h : l.Is .punctuation (.ofChars [b.closer])) :
    l.terminal = .closing b := by
  rw [terminal, h.1, h.2]
  cases b <;> rfl

inductive Seen (l : Lexeme) : Terminal → Prop where
  | eof : l.kind = .eof → Seen l .eof
  | blank : l.isBlank → Seen l .blank
  | numeral {v : Literal} :
    l.kind = .numeric → Token.literal { toLexeme := l } = .ok v → Seen l .atom
  | string : l.kind = .string → Seen l .atom
  | constant : l.kind = .keyword → l.raw.toString = "true" ∨ l.raw.toString = "false" → Seen l .atom
  | name : l.kind = .identifier → Seen l .name
  | command :
    l.kind = .keyword → l.raw.toString = "print" ∨ l.raw.toString = "if" → Seen l .command
  | opening {b : Bracket} : l.Is .punctuation (.ofChars [b.opener]) → Seen l (.opening b)
  | closing {b : Bracket} : l.Is .punctuation (.ofChars [b.closer]) → Seen l (.closing b)
  | assign : l.Is .operator "=" → Seen l .assign
  | operator : l.kind = .operator →
    Seen l (.operator (OpKind.ofBinary? l.raw.toString).isSome
      (OpKind.ofSign? l.raw.toString).isSome)
  | other : Seen l .other

theorem seen (l : Lexeme) : l.Seen l.terminal := by
  unfold terminal
  split
  · exact .eof (by assumption)
  case h_2 h =>
    exact .blank (by simp [isBlank, h])
  case h_3 h =>
    exact .blank (by simp [isBlank, h])
  case h_4 h =>
    split
    case h_1 v hv =>
      exact .numeral h hv
    · exact .other
  · exact .string (by assumption)
  · exact .name (by assumption)
  case h_7 h =>
    split
    · exact .constant h (by assumption)
    split
    · exact .command h (by assumption)
    · exact .other
  case h_8 h =>
    split
    · exact .assign ⟨h, by assumption⟩
    · exact .operator h
  case h_9 h =>
    rcases Terminal.ofBracket_cases l.raw with ⟨b, hb, hr⟩ | ⟨b, hb, hr⟩ | hb
    · rw [hb]
      exact .opening ⟨h, hr⟩
    · rw [hb]
      exact .closing ⟨h, hr⟩
    · rw [hb]
      exact .other
  · exact .other

end Lexeme

namespace Mode

inductive Starts : Mode → Prop where
  | statement : Starts .statement
  | operand : Starts .operand

inductive Ends : Mode → Prop where
  | name : Ends .name
  | called : Ends .called
  | value : Ends .value

end Mode

namespace Recogniser

open Grammar (Blanks)

variable {mode : Mode} {frames : List (Bracket × Mode)} {b : Bracket} {w : List Lexeme}

theorem step_start {t : Terminal} {r : Recogniser} (hm : mode.Starts)
    (h : start frames t = some r) : step ⟨mode, frames⟩ t = some r := by
  cases hm with
  | statement => cases t <;> first | exact h | cases h
  | operand => cases t <;> first | exact h | cases h

section Terminals

variable {l : Lexeme}

theorem run_atom (hm : mode.Starts) (hl : l.terminal = .atom) (x : List Lexeme) :
    run ⟨mode, frames⟩ (l :: x) = run ⟨.value, frames⟩ x := by
  apply run_cons
  rw [hl]
  exact step_start hm rfl

theorem run_name (hm : mode.Starts) (hl : l.kind = .identifier) (x : List Lexeme) :
    run ⟨mode, frames⟩ (l :: x) = run ⟨.name, frames⟩ x := by
  apply run_cons
  rw [Lexeme.terminal_name hl]
  exact step_start hm rfl

theorem run_command {word : String} (hm : mode.Starts) (hl : l.kind = .keyword)
    (hw : l.raw.toString = word) (hword : word = "print" ∨ word = "if") (x : List Lexeme) :
    run ⟨mode, frames⟩ (l :: x) = run ⟨.command, frames⟩ x := by
  apply run_cons
  rw [Lexeme.terminal_command hl hw hword]
  exact step_start hm rfl

theorem run_sign {k : OpKind} (hm : mode.Starts) (hl : l.kind = .operator)
    (hs : OpKind.ofSign? l.raw.toString = some k) (x : List Lexeme) :
    run ⟨mode, frames⟩ (l :: x) = run ⟨.operand, frames⟩ x := by
  obtain ⟨binary, ht⟩ := Lexeme.terminal_sign hl hs
  apply run_cons
  rw [ht]
  exact step_start hm rfl

theorem run_blank (hm : mode.Starts) (hl : l.isBlank) (x : List Lexeme) :
    run ⟨mode, frames⟩ (l :: x) = run ⟨mode, frames⟩ x := by
  apply run_cons
  rw [Lexeme.terminal_blank hl]
  cases hm <;> rfl

theorem run_assign (hl : l.Is .operator "=") (x : List Lexeme) :
    run ⟨.name, frames⟩ (l :: x) = run ⟨.operand, frames⟩ x := by
  apply run_cons
  rw [Lexeme.terminal_assign hl.1 hl.2]
  rfl

theorem run_binary {k : OpKind} (hm : mode.Ends) (hl : l.kind = .operator)
    (hb : OpKind.ofBinary? l.raw.toString = some k) (x : List Lexeme) :
    run ⟨mode, frames⟩ (l :: x) = run ⟨.operand, frames⟩ x := by
  obtain ⟨sign, ht⟩ := Lexeme.terminal_binary hl hb
  apply run_cons
  rw [ht]
  cases hm <;> rfl

end Terminals

theorem run_blanks (hm : mode.Starts) (hw : Blanks w) (x : List Lexeme) :
    run ⟨mode, frames⟩ (w ++ x) = run ⟨mode, frames⟩ x := by
  induction w with
  | nil => rfl
  | cons l w ih =>
    obtain ⟨hl, hw⟩ := List.forall_mem_cons.1 hw
    rw [List.cons_append, run_blank hm hl]
    exact ih hw

theorem run_closing_blanks (hw : Blanks w) (x : List Lexeme) :
    run ⟨.closing, frames⟩ (w ++ x) = run ⟨.closing, frames⟩ x := by
  induction w with
  | nil => rfl
  | cons l w ih =>
    obtain ⟨hl, hw⟩ := List.forall_mem_cons.1 hw
    have hstep : step ⟨.closing, frames⟩ l.terminal = some ⟨.closing, frames⟩ := by
      rw [Lexeme.terminal_blank hl]
      rfl
    rw [List.cons_append, run_cons hstep]
    exact ih hw

/-- Inside brackets the first blank behind an operand leaves only the closing bracket. -/
theorem run_last_blanks {frame : Bracket × Mode} {l : Lexeme} (hm : mode.Ends) (hl : l.isBlank)
    (hw : Blanks w) (x : List Lexeme) :
    run ⟨mode, frame :: frames⟩ (l :: w ++ x) = run ⟨.closing, frame :: frames⟩ x := by
  have hstep : step ⟨mode, frame :: frames⟩ l.terminal = some ⟨.closing, frame :: frames⟩ := by
    rw [Lexeme.terminal_blank hl]
    cases hm <;> rfl
  rw [List.cons_append, run_cons hstep]
  exact run_closing_blanks hw x

theorem run_close {mode' : Mode} {l : Lexeme} (hm : mode.Ends) (hw : Blanks w)
    (hl : l.terminal = .closing b) (x : List Lexeme) :
    run ⟨mode, (b, mode') :: frames⟩ (w ++ l :: x) = run ⟨mode', frames⟩ x := by
  have hclose : close b ((b, mode') :: frames) = some ⟨mode', frames⟩ := if_pos rfl
  cases w with
  | nil =>
    apply run_cons
    rw [hl, ← hclose]
    cases hm <;> rfl
  | cons m w =>
    obtain ⟨hb, hw⟩ := List.forall_mem_cons.1 hw
    rw [run_last_blanks hm hb hw]
    apply run_cons
    rw [hl, ← hclose]
    rfl

end Recogniser

namespace Grammar

open Recogniser

/-- The recogniser goes through a word of a phrase; brackets that were open stay open. -/
def Passed : Phrase → List Lexeme → Prop
  | .enclosed b, w => ∀ (r : Recogniser) mode frames x,
    r.step (.opening b) = some ⟨.operand, (b, mode) :: frames⟩ →
    r.run (w ++ x) = run ⟨mode, frames⟩ x
  | _, w => ∀ mode frames, mode.Starts → ∃ mode', mode'.Ends ∧
    ∀ x, run ⟨mode, frames⟩ (w ++ x) = run ⟨mode', frames⟩ x

theorem passed_operand {t : Tier} {w : List Lexeme} (h : Passed (.operand t) w) :
    Passed (.tier t) w := by
  cases t with
  | logical => exact h
  | expression => exact h
  | term => exact h

theorem passed_single {l : Lexeme} (h : l.terminal = .atom) : Passed .factor [l] := by
  intro mode frames hm
  exact ⟨.value, .value, run_atom hm h⟩

theorem Derives.passed {p : Phrase} {w : List Lexeme} {e : Expr} (h : Derives p w e) :
    Passed p w := by
  induction h with
  | operand _ ih => exact passed_operand ih
  | binary _ hs hl _ ihe ihf =>
    intro mode frames hm
    obtain ⟨mode₁, he, hv⟩ := ihe mode frames hm
    obtain ⟨mode₂, hf, hw⟩ := passed_operand ihf .operand frames .operand
    obtain ⟨hb, -⟩ := mem_operators.1 hs
    refine ⟨mode₂, hf, fun x => ?_⟩
    rw [List.append_assoc, hv, List.cons_append, run_binary he hl.1 (hl.toString_raw ▸ hb), hw]
  | numeral hl hv => exact passed_single (Lexeme.terminal_numeral hl hv)
  | string hl => exact passed_single (Lexeme.terminal_string hl)
  | constant hl => exact passed_single (Lexeme.terminal_constant hl.1 hl.toString_raw)
  | sign hs hl _ ih =>
    intro mode frames hm
    obtain ⟨mode', he, hw⟩ := ih .operand frames .operand
    refine ⟨mode', he, fun x => ?_⟩
    rw [List.cons_append, run_sign hm hl.1 (hl.toString_raw ▸ mem_signs.1 hs), hw]
  | group _ ih =>
    intro mode frames hm
    exact ⟨.value, .value, fun x => ih _ _ _ _ (step_start hm rfl)⟩
  | name hl =>
    intro mode frames hm
    exact ⟨.name, .name, run_name hm hl⟩
  | assignment hl hl' _ ih =>
    intro mode frames hm
    obtain ⟨mode', he, hw⟩ := ih .operand frames .operand
    refine ⟨mode', he, fun x => ?_⟩
    rw [List.cons_append, run_name hm hl, List.cons_append, run_assign hl', hw]
  | call hl _ ih =>
    intro mode frames hm
    refine ⟨.value, .value, fun x => ?_⟩
    rw [List.cons_append, run_name hm hl]
    exact ih _ _ _ _ rfl
  | index hl _ ih =>
    intro mode frames hm
    refine ⟨.value, .value, fun x => ?_⟩
    rw [List.cons_append, run_name hm hl]
    exact ih _ _ _ _ rfl
  | command hword hl _ ih =>
    intro mode frames hm
    refine ⟨.called, .called, fun x => ?_⟩
    rw [List.cons_append, run_command hm hl.1 hl.toString_raw hword]
    exact ih _ _ _ _ rfl
  | block hword hl _ _ ih ih' =>
    intro mode frames hm
    refine ⟨.value, .value, fun x => ?_⟩
    rw [List.append_assoc, List.cons_append, run_command hm hl.1 hl.toString_raw hword,
      ih _ _ _ _ rfl]
    exact ih' _ _ _ _ rfl
  | blank hl _ ih =>
    intro mode frames hm
    obtain ⟨mode', he, hw⟩ := ih mode frames hm
    refine ⟨mode', he, fun x => ?_⟩
    rw [List.cons_append, run_blank hm hl, hw]
  | @enclosed b l m u v w _ hl hu _ hw hm ih =>
    intro r mode frames x hr
    obtain ⟨mode', he, hv⟩ := ih .operand ((b, mode) :: frames) .operand
    have hsplit : l :: u ++ v ++ w ++ [m] ++ x = l :: (u ++ (v ++ (w ++ m :: x))) := by simp
    rw [← Lexeme.terminal_opening hl] at hr
    rw [hsplit, run_cons hr, run_blanks .operand hu, hv]
    exact run_close he hw (Lexeme.terminal_closing hm) x

theorem run_statement_blank {mode : Mode} {l : Lexeme} (hm : mode.Ends) (hl : l.isBlank)
    (x : List Lexeme) : run ⟨mode, []⟩ (l :: x) = run ⟨.statement, []⟩ x := by
  apply run_cons
  rw [Lexeme.terminal_blank hl]
  cases hm <;> rfl

theorem DerivesAll.passed {w : List Lexeme} {es : List Expr} (h : DerivesAll w es) :
    ∃ mode, mode.Ends ∧ ∀ x, run ⟨.statement, []⟩ (w ++ x) = run ⟨mode, []⟩ x := by
  induction h with
  | one he => exact he.passed .statement [] .statement
  | @cons u v w l _ _ he hl hv _ ih =>
    obtain ⟨mode, hm, hu⟩ := he.passed .statement [] .statement
    obtain ⟨mode', hm', hw⟩ := ih
    refine ⟨mode', hm', fun x => ?_⟩
    have hsplit : u ++ l :: v ++ w ++ x = u ++ (l :: (v ++ (w ++ x))) := by simp
    rw [hsplit, hu, run_statement_blank hm hl, run_blanks .statement hv, hw]

theorem DerivesProgram.passed {w : List Lexeme} {es : List Expr} (h : DerivesProgram w es) :
    (run ⟨.statement, []⟩ w).isSome := by
  cases h with
  | empty hu hl =>
    rw [run_blanks .statement hu, run, Lexeme.terminal_eof hl]
    rfl
  | @statements u v w l _ hu hv hw hl =>
    obtain ⟨mode, hm, hv⟩ := hv.passed
    have hsplit : u ++ v ++ w ++ [l] = u ++ (v ++ (w ++ [l])) := by simp
    rw [hsplit, run_blanks .statement hu, hv]
    cases w with
    | nil =>
      rw [List.nil_append, run, Lexeme.terminal_eof hl]
      cases hm <;> rfl
    | cons m w =>
      obtain ⟨hb, hw⟩ := List.forall_mem_cons.1 hw
      rw [List.cons_append, run_statement_blank hm hb, run_blanks .statement hw, run,
        Lexeme.terminal_eof hl]
      rfl

end Grammar

/-- The kind and the text of a lexeme, and how a numeral was written: what the grammar can tell. -/
def Lexeme.face (l : Lexeme) : TokenKind × Text × NumericHint := (l.kind, l.raw, l.hint)

theorem Lexeme.terminal_eq {l m : Lexeme} (h : l.face = m.face) : l.terminal = m.terminal := by
  obtain ⟨hk, hr, hh⟩ : l.kind = m.kind ∧ l.raw = m.raw ∧ l.hint = m.hint := by
    simpa [face] using h
  unfold terminal
  rw [hk, hr]
  split
  case h_4 =>
    cases hl : Token.literal { toLexeme := l } with
    | ok v =>
      have hm : Token.literal { toLexeme := m } = .ok v :=
        Token.literal_eq hl hk.symm hr.symm hh.symm
      rw [hm]
    | error e =>
      cases hm : Token.literal { toLexeme := m } with
      | ok v => cases hl.symm.trans (Token.literal_eq hm hk hr hh)
      | error e' => rfl
  all_goals rfl

namespace Grammar

open Recogniser

/-- Some lexemes begin a program of the grammar. -/
def Viable (w : List Lexeme) : Prop :=
  ∃ v x es, v.map Lexeme.face = w.map Lexeme.face ∧ DerivesProgram (v ++ x) es

theorem run_face {v w : List Lexeme} (h : v.map Lexeme.face = w.map Lexeme.face)
    (r : Recogniser) : r.run v = r.run w := by
  induction w generalizing v r with
  | nil => rw [List.map_eq_nil_iff.1 h]
  | cons l w ih =>
    obtain ⟨m, v, rfl, hm, hv⟩ := List.map_eq_cons_iff.1 h
    rw [run, run, Lexeme.terminal_eq hm]
    cases r.step l.terminal with
    | none => rfl
    | some r' => exact ih hv r'

theorem Viable.passed {w : List Lexeme} (h : Viable w) :
    (run ⟨.statement, []⟩ w).isSome := by
  obtain ⟨v, x, es, hface, hd⟩ := h
  have hpassed := hd.passed
  rw [run_append, run_face hface] at hpassed
  cases hrun : run ⟨.statement, []⟩ w with
  | none =>
    rw [hrun] at hpassed
    cases hpassed
  | some r => rfl

end Grammar

end Reckon
