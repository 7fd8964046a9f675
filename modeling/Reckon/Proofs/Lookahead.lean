import Reckon.Program

namespace Reckon

namespace Lexer

inductive Call where
  | next
  | peek
  deriving DecidableEq, Repr

def call (l : Lexer) : Call → Lexed × Lexer
  | .next => l.next
  | .peek => l.peek

def after (l : Lexer) (calls : List Call) : Lexer := calls.foldl (fun l k => (l.call k).2) l

/-- What some calls yield, each beside its call. An error does not stop them. -/
def answers (l : Lexer) : List Call → List (Call × Lexed)
  | [] => []
  | k :: ks => (k, (l.call k).1) :: (l.call k).2.answers ks

structure Keeps (I : Scanner → Prop) (P : Lexed → Prop) (l : Lexer) : Prop where
  scanner : I l.scanner
  peeked : ∀ r ∈ l.peeked, P r

theorem Keeps.call {I : Scanner → Prop} {P : Lexed → Prop}
    (hread : ∀ s, I s → P s.next.1 ∧ I s.next.2) {l : Lexer} (h : l.Keeps I P) (k : Call) :
    P (l.call k).1 ∧ (l.call k).2.Keeps I P := by
  obtain ⟨s, _ | r⟩ := l
  · obtain ⟨hp, hi⟩ := hread s h.scanner
    cases k with
    | next => exact ⟨hp, ⟨hi, fun _ hr => absurd hr (Option.not_mem_none _)⟩⟩
    | peek => exact ⟨hp, ⟨hi, fun _ hr => Option.mem_some.1 hr ▸ hp⟩⟩
  · have hp := h.peeked r rfl
    cases k with
    | next => exact ⟨hp, ⟨h.scanner, fun _ hr => absurd hr (Option.not_mem_none _)⟩⟩
    | peek => exact ⟨hp, h⟩

/-- What every reading of the scanner keeps and yields, every sequence of calls keeps and yields. -/
theorem Keeps.calls {I : Scanner → Prop} {P : Lexed → Prop}
    (hread : ∀ s, I s → P s.next.1 ∧ I s.next.2) {l : Lexer} (h : l.Keeps I P) (ks : List Call) :
    (∀ a ∈ l.answers ks, P a.2) ∧ (l.after ks).Keeps I P := by
  induction ks generalizing l with
  | nil => exact ⟨List.forall_mem_nil _, h⟩
  | cons k ks ih =>
    obtain ⟨hp, hk⟩ := h.call hread k
    obtain ⟨hanswers, hafter⟩ := ih hk
    exact ⟨List.forall_mem_cons.2 ⟨hp, hanswers⟩, hafter⟩

/-- Two lexers that differ at most in that the first has looked ahead. -/
inductive Ahead : Lexer → Lexer → Prop where
  | same {l : Lexer} : Ahead l l
  | peeked {s s' : Scanner} {r : Lexed} (h : s.next = (r, s')) : Ahead ⟨s', some r⟩ ⟨s, none⟩

namespace Ahead

variable {l l' : Lexer}

theorem next_eq (h : l.Ahead l') : l.next = l'.next := by
  cases h with
  | same => rfl
  | peeked h => simp [next, h]

theorem peek_fst (h : l.Ahead l') : l.peek.1 = l'.next.1 := by
  cases h with
  | peeked h => simp [peek, next, h]
  | same =>
    unfold peek next
    split <;> rfl

theorem peek_snd (h : l.Ahead l') : l.peek.2.Ahead l' := by
  cases h with
  | peeked h => exact .peeked h
  | same =>
    obtain ⟨s, _ | r⟩ := l
    · exact .peeked rfl
    · exact .same

theorem after (h : l.Ahead l') (ks : List Call) :
    (l.after ks).Ahead (l'.after (ks.filter (· = .next))) := by
  induction ks generalizing l l' with
  | nil => exact h
  | cons k ks ih =>
    cases k with
    | next =>
      -- from here on the two are one lexer, and it may look ahead again
      have hsame : l.next.2.Ahead l'.next.2 := h.next_eq ▸ .same
      exact ih hsame
    | peek => exact ih h.peek_snd

theorem answers (h : l.Ahead l') (ks : List Call) :
    (l.answers ks).filter (·.1 = .next) = l'.answers (ks.filter (· = .next)) := by
  induction ks generalizing l l' with
  | nil => rfl
  | cons k ks ih =>
    cases k with
    | next =>
      have hsame : l'.next.2.Ahead l'.next.2 := .same
      simpa [Lexer.answers, call, h.next_eq] using ih hsame
    | peek => simpa [Lexer.answers, call] using ih h.peek_snd

theorem parse_eq (h : l.Ahead l') : l.parse = l'.parse := by
  simp only [Lexer.parse, Lexer.parseStatements, Cursor.ofLexer, h.next_eq]

end Ahead

/-- A lexer that keeps the token and the error of what it read ahead apart. -/
structure Cells where
  scanner : Scanner
  token : Option Token := none
  error : Option LexError := none

def parts : Lexed → Token × Option LexError
  | .ok t => (t, none)
  | .error e => (.zero, some e)

namespace Cells

def held (c : Cells) : Option (Token × Option LexError) := c.token.map (·, c.error)

def fill (c : Cells) : Cells :=
  let (r, s) := c.scanner.next
  { scanner := s, token := some (parts r).1, error := (parts r).2 }

/-- Makes a call. Where either cell is filled the answer is read off the token cell, and the call
fails if only the other one is. -/
def call (c : Cells) : Call → Option ((Token × Option LexError) × Cells)
  | .next =>
    if c.token.isSome ∨ c.error.isSome then c.held.map (·, { scanner := c.scanner })
    else
      let (r, s) := c.scanner.next
      some (parts r, { scanner := s })
  | .peek =>
    let c := if c.token.isNone ∧ c.error.isNone then c.fill else c
    c.held.map (·, c)

def answers (c : Cells) : List Call → Option (List (Call × Token × Option LexError))
  | [] => some []
  | k :: ks => do
    let (r, c) ← c.call k
    let rs ← c.answers ks
    return (k, r) :: rs

end Cells

def cells (l : Lexer) : Cells :=
  ⟨l.scanner, l.peeked.map fun r => (parts r).1, l.peeked.bind fun r => (parts r).2⟩

theorem cells_call (l : Lexer) (k : Call) :
    l.cells.call k = some (parts (l.call k).1, (l.call k).2.cells) := by
  obtain ⟨s, _ | r⟩ := l
  · cases k <;> rfl
  · cases k <;> rfl

theorem cells_answers (l : Lexer) (ks : List Call) :
    l.cells.answers ks = some ((l.answers ks).map fun a => (a.1, parts a.2)) := by
  induction ks generalizing l with
  | nil => rfl
  | cons k ks ih => simp [Cells.answers, answers, cells_call, ih]

/-- The tokens that are taken, and what a parse returns afterwards, are the same without the looks
in between, and a look shows what is taken next. Keeping token and error apart answers the same. -/
theorem lookahead_transparent (source : List Char) (calls : List Call) :
    let l := ofSource source
    let nexts := calls.filter (· = .next)
    (l.answers calls).filter (·.1 = .next) = l.answers nexts ∧
      (∀ k, ((l.after calls).peek.2.after (List.replicate k .peek)).next.1 =
        (l.after calls).peek.1) ∧
      (l.after calls).parse = (l.after nexts).parse ∧
      ({ scanner := l.scanner } : Cells).answers calls =
        some ((l.answers calls).map fun a => (a.1, parts a.2)) := by
  intro l nexts
  have hahead : l.Ahead l := .same
  refine ⟨hahead.answers calls, ?_, (hahead.after calls).parse_eq, cells_answers l calls⟩
  intro k
  have hpeek : (l.after calls).peek.2.Ahead (l.after calls) := Ahead.same.peek_snd
  have hpeeks := hpeek.after (List.replicate k .peek)
  have hnone : (List.replicate k Call.peek).filter (· = .next) = [] := by simp
  rw [hnone] at hpeeks
  rw [hpeeks.next_eq]
  exact (Ahead.peek_fst .same).symm

end Lexer

end Reckon
