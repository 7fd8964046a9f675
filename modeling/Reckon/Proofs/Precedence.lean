import Reckon.Proofs.RoundTrip
import Reckon.Proofs.Words

namespace Reckon

def Tier.level : Option Tier → Nat
  | some .logical => 0
  | some .expression => 1
  | some .term => 2
  | none => 3

namespace Expr

inductive IsFormula : Expr → Prop where
  | integer {n : Int32} : 0 ≤ n.toInt → IsFormula (.literal (.integer n))
  | boolean (b : Bool) : IsFormula (.literal (.boolean b))
  | symbol {s : String} : IsIdentifier s → IsFormula (.symbol s)
  | unary {k : OpKind} {e : Expr} :
    k = .unaryPass ∨ k = .unaryMinus → IsFormula e → IsFormula (.unary k e)
  | binary {k : OpKind} {e f : Expr} :
    k ∈ OpKind.binary → IsFormula e → IsFormula f → IsFormula (.binary k e f)
  | index {s : String} {e : Expr} :
    IsIdentifier s → IsFormula e → IsFormula (.binary .index (.symbol s) e)
  | call {s : String} {e : Expr} :
    IsIdentifier s ∨ s = "print" ∨ s = "if" → IsFormula e → IsFormula (.call s e)

def tier? : Expr → Option Tier
  | .apply op [_, _] => op.kind.tier?
  | _ => none

def bracketed (needed : Bool) (tokens : List String) : List String :=
  if needed then "(" :: tokens ++ [")"] else tokens

/-- The tokens of a tree, with no more brackets than its operators need. -/
def tokens : Expr → List String
  | .literal l => [l.text]
  | .apply op [e] =>
    match op.kind with
    | .call => op.name :: "(" :: e.tokens ++ [")"]
    | k => k.symbol :: bracketed e.tier?.isSome e.tokens
  | .apply op [l, r] =>
    match op.kind with
    | .index => l.tokens ++ "[" :: r.tokens ++ ["]"]
    | k =>
      bracketed (Tier.level l.tier? < Tier.level k.tier?) l.tokens ++
        k.symbol :: bracketed (Tier.level r.tier? ≤ Tier.level k.tier?) r.tokens
  | _ => []

def spaced (e : Expr) : String := " ".intercalate e.tokens

theorem tokens_unary {k : OpKind} (hk : k = .unaryPass ∨ k = .unaryMinus) (e : Expr) :
    (unary k e).tokens = k.symbol :: bracketed e.tier?.isSome e.tokens := by
  rcases hk with rfl | rfl <;> rfl

theorem tokens_binary {k : OpKind} {t : Tier} (hk : k.tier? = some t) (e f : Expr) :
    (binary k e f).tokens =
      bracketed (Tier.level e.tier? < Tier.level (some t)) e.tokens ++
        k.symbol :: bracketed (Tier.level f.tier? ≤ Tier.level (some t)) f.tokens := by
  rw [← hk]
  cases k <;> first | rfl | cases hk

end Expr

def EmitsAlone (n : Nesting) (s : String) (l : Lexeme) (n' : Nesting) : Prop :=
  ∀ cs, cs = [] ∨ (∃ ds, cs = ' ' :: ds) → Emits n (s.toList ++ cs) [l] n' cs

inductive EmitsEach : Nesting → List String → List Lexeme → Nesting → Prop where
  | nil (n : Nesting) : EmitsEach n [] [] n
  | cons {n n' n'' : Nesting} {s : String} {ss : List String} {l : Lexeme} {w : List Lexeme} :
    EmitsAlone n s l n' → EmitsEach n' ss w n'' → EmitsEach n (s :: ss) (l :: w) n''

namespace EmitsEach

variable {n n' n'' : Nesting} {ss ts : List String} {v w : List Lexeme}

theorem single {s : String} {l : Lexeme} (h : EmitsAlone n s l n') : EmitsEach n [s] [l] n' :=
  .cons h (.nil n')

theorem append (h : EmitsEach n ss v n') (h' : EmitsEach n' ts w n'') :
    EmitsEach n (ss ++ ts) (v ++ w) n'' := by
  induction h with
  | nil => exact h'
  | cons hs _ ih => exact .cons hs (ih h')

theorem enclosed {b : Bracket} (h : EmitsEach (n.inside b) ss w (n.inside b)) :
    EmitsEach n (String.singleton b.opener :: ss ++ [String.singleton b.closer])
      (.opening b.opener (n.get b) :: w ++ [.closing b.closer (n.get b)]) n := by
  have hopen : EmitsAlone n (String.singleton b.opener) (.opening b.opener (n.get b))
      (n.inside b) := by
    intro cs _
    rw [String.toList_singleton]
    exact .opening n b cs
  have hclose : EmitsAlone (n.inside b) (String.singleton b.closer) (.closing b.closer (n.get b))
      n := by
    intro cs _
    rw [String.toList_singleton]
    exact .closing n b cs
  exact .cons hopen (h.append (single hclose))

theorem spaced (h : EmitsEach n ss w n') : Emits n (" ".intercalate ss).toList w n' [] := by
  induction h with
  | nil n => exact fun pos => ⟨pos, .refl _⟩
  | @cons n n' n'' s ss l w hs hss ih =>
    cases hss with
    | nil =>
      have h := hs [] (.inl rfl)
      simpa using h
    | cons hs' hss' =>
      have h := (hs _ (.inr ⟨_, rfl⟩)).cons ih.space
      simpa using h

end EmitsEach

namespace EmitsAlone

variable {n : Nesting}

theorem breaks {cs : List Char} (h : cs = [] ∨ ∃ ds, cs = ' ' :: ds) : Breaks cs := by
  rcases h with rfl | ⟨ds, rfl⟩
  · exact .nil
  · exact .cons (by decide)

theorem operator {k : OpKind} (hk : k ∈ OpKind.binary) :
    EmitsAlone n k.symbol (.plain .operator k.symbol.toList) n := by
  intro cs hcs
  rcases hcs with rfl | ⟨ds, rfl⟩
  · simp only [OpKind.binary, List.mem_cons, List.not_mem_nil, or_false] at hk
    rcases hk with rfl | rfl | rfl | rfl | rfl | rfl | rfl | rfl | rfl | rfl | rfl | rfl <;>
      exact .of_readLexeme rfl rfl
  · exact .operator n ds (.inr ⟨k, hk, rfl⟩)

theorem name {s : String} (hs : IsIdentifier s) :
    EmitsAlone n s (.plain .identifier s.toList) n := by
  intro cs hcs
  exact .name hs (breaks hcs)

theorem keyword {s : String} (hs : s ∈ keywords) :
    EmitsAlone n s (.plain .keyword s.toList) n := by
  intro cs hcs
  exact .keyword hs (breaks hcs)

end EmitsAlone

namespace Grammar

/-- What may follow a tree of a tier: no operator, or one that binds no tighter. -/
def After (t : Option Tier) (l : Lexeme) : Prop :=
  EndsSequence l ∨ ∃ s, Joins s l ∧ Tier.level (some s) ≤ Tier.level t

/-- A word is read as a tree of a tier; the tree is the first operand of the chain behind it. -/
def Opens (t : Option Tier) (e : Expr) (w : List Lexeme) : Prop :=
  ∀ l x, After t l →
    match t with
    | none => Parses .factor (w ++ l :: x) e (l :: x)
    | some t => ∀ all y, Parses (.chain t e) (l :: x) all y → Parses (.tier t) (w ++ l :: x) all y

section After

variable {t t' : Tier} {l : Lexeme}

theorem After.stops (h : After (some t) l) (ht : Tier.level (some t) < Tier.level (some t')) :
    t'.Stops l := by
  rcases h with h | ⟨s, hs, hle⟩
  · exact h.stops t'
  · apply hs.stops
    rintro rfl
    omega

theorem After.tighter (h : After (some t) l) : After t.tighter l := by
  have hle : Tier.level (some t) ≤ Tier.level t.tighter := by cases t <;> decide
  rcases h with h | ⟨s, hs, hs'⟩
  · exact .inl h
  · exact .inr ⟨s, hs, Nat.le_trans hs' hle⟩

theorem After.endsOperand {t : Option Tier} (h : After t l) : Cursor.endsOperand l := by
  rcases h with h | ⟨s, hs, -⟩
  · exact h.endsOperand
  · exact hs.endsOperand

theorem After.not_assigns {t : Option Tier} (h : After t l) : ¬ l.isOperator "=" := by
  rcases h with h | ⟨s, hs, -⟩
  · exact h.not_assigns
  · exact hs.not_assigns

end After

namespace Opens

variable {t : Tier} {e f : Expr} {v w x : List Lexeme} {l : Lexeme}

theorem operand (h : Opens t.tighter e w) (hl : After (some t) l) :
    Parses (.ofTier t.tighter) (w ++ l :: x) e (l :: x) := by
  have h := h l x hl.tighter
  cases t with
  | term => exact h
  | expression => exact h _ _ (.stop (hl.stops (by decide)))
  | logical => exact h _ _ (.stop (hl.stops (by decide)))

theorem loosen (h : Opens t.tighter e w) : Opens (some t) e w := by
  intro l x hl all y hchain
  exact .tier (h.operand hl) hchain

theorem mono {s t : Option Tier} (h : Opens s e w) (hle : Tier.level t ≤ Tier.level s) :
    Opens t e w := by
  have term (h : Opens none e w) : Opens (some .term) e w := loosen (t := .term) h
  have expression (h : Opens (some .term) e w) : Opens (some .expression) e w :=
    loosen (t := .expression) h
  have logical (h : Opens (some .expression) e w) : Opens (some .logical) e w :=
    loosen (t := .logical) h
  match s, t with
  | none, none | some .term, some .term | some .expression, some .expression
  | some .logical, some .logical => exact h
  | none, some .term => exact term h
  | none, some .expression => exact expression (term h)
  | none, some .logical => exact logical (expression (term h))
  | some .term, some .expression => exact expression h
  | some .term, some .logical => exact logical (expression h)
  | some .expression, some .logical => exact logical h
  | some .term, none | some .expression, none | some .logical, none
  | some .expression, some .term | some .logical, some .term
  | some .logical, some .expression => exact absurd hle (by decide)

theorem alone (h : Opens (some .logical) e w) (hl : EndsSequence l) :
    Parses (.tier .logical) (w ++ l :: x) e (l :: x) :=
  h l x (.inl hl) e _ (.stop (hl.stops _))

theorem delimited {b : Bracket} {m : Lexeme} (h : Opens (some .logical) e (m :: v))
    (hm : ¬ m.isBlank) :
    Parses (.delimited b) (l :: (m :: v ++ [.closing b.closer 0]) ++ x) e x := by
  have hclose : EndsSequence (.closing b.closer 0) := .inr (.inr rfl)
  have hp := Parses.delimited (l := l) (u := []) (w := []) (List.forall_mem_nil _) hm
    (h.alone (x := x) hclose) (List.forall_mem_nil _) rfl
  simpa using hp

theorem binary {s : String} {k : OpKind} (hs : (s, k) ∈ operators t) (hl : l.Is .operator s)
    (he : Opens (some t) e v) (hf : Opens t.tighter f w) :
    Opens (some t) (.binary k e f) (v ++ l :: w) := by
  intro m x hm all y hchain
  obtain ⟨hb, ht⟩ := mem_operators.1 hs
  rw [← hl.toString_raw] at hb
  have hafter : After (some t) l := .inr ⟨t, ⟨s, k, hs, hl⟩, Nat.le_refl _⟩
  -- The chain of the left operand goes on with this operator and then with the chain behind it.
  have hrest : Parses (.chain t e) (l :: (w ++ m :: x)) all y :=
    .more hl.1 hb ht (hf.operand hm) hchain
  have hall := he l _ hafter all y hrest
  simpa using hall

end Opens

def Writes (t : Option Tier) (e : Expr) (ss : List String) : Prop :=
  ∀ n, ∃ l w, EmitsEach n ss (l :: w) n ∧ ¬ endsStatement l ∧
    Opens t e ((l :: w).map Lexeme.unnested)

namespace Writes

variable {t : Option Tier} {e f : Expr} {ss ts : List String}

theorem mono {s : Option Tier} (h : Writes s e ss) (hle : Tier.level t ≤ Tier.level s) :
    Writes t e ss := by
  intro n
  obtain ⟨l, w, hss, hl, hw⟩ := h n
  exact ⟨l, w, hss, hl, hw.mono hle⟩

theorem logical (h : Writes t e ss) : Writes (some .logical) e ss := h.mono (Nat.zero_le _)

theorem enclosed (h : Writes t e ss) (b : Bracket) (n : Nesting) :
    ∃ w, EmitsEach n (String.singleton b.opener :: ss ++ [String.singleton b.closer])
        (.opening b.opener (n.get b) :: w) n ∧
      ∀ l x, Parses (.delimited b) (l :: w.map Lexeme.unnested ++ x) e x := by
  obtain ⟨m, w, hss, hm, hw⟩ := h.logical (n.inside b)
  refine ⟨_, hss.enclosed, fun l x => ?_⟩
  have hblank : ¬ m.isBlank := fun hb => hm (endsStatement_iff.2 (.inl hb))
  have hp := Opens.delimited (b := b) (l := l) (x := x) hw hblank
  simpa [Lexeme.unnested, Lexeme.closing] using hp

theorem group (h : Writes t e ss) : Writes none e ("(" :: ss ++ [")"]) := by
  intro n
  obtain ⟨w, hss, hw⟩ := h.enclosed .round n
  refine ⟨_, w, hss, Bool.false_ne_true, fun l x hl => ?_⟩
  exact .group rfl (hw _ _)

theorem bracketed {s : Option Tier} {needed : Bool} (h : Writes s e ss)
    (hle : needed = false → Tier.level t ≤ Tier.level s) :
    Writes t e (Expr.bracketed needed ss) := by
  cases needed with
  | true => exact h.group.mono (by cases t with | none => decide | some t => cases t <;> decide)
  | false => exact h.mono (hle rfl)

theorem single {s : String} {l : Lexeme} (hs : ∀ n, EmitsAlone n s l n) (hl : ¬ endsStatement l)
    (hp : Opens none e [l.unnested]) : Writes none e [s] :=
  fun n => ⟨l, [], .single (hs n), hl, hp⟩

theorem integer {v : Int32} (hv : 0 ≤ v.toInt) :
    Writes none (.literal (.integer v)) [toString v.toInt] := by
  obtain ⟨c, ds, htext, hc, hds, hread⟩ := int32?_text hv
  apply single (l := .numeral (c :: ds) false)
  · intro n cs hcs
    rw [htext]
    exact .digits hc hds (EmitsAlone.breaks hcs)
  · exact Bool.false_ne_true
  · intro l x _
    have hl : Token.literal { toLexeme := .numeral (c :: ds) false } = .ok (.integer v) := by
      simp [Token.literal, Lexeme.numeral, hread]
    exact .numeral rfl hl

theorem constant (v : Bool) :
    Writes none (.literal (.boolean v)) [(Literal.boolean v).text] := by
  have hword : (Literal.boolean v).text ∈ keywords := by cases v <;> decide
  apply single (fun n => .keyword hword) Bool.false_ne_true
  intro l x _
  exact .constant rfl (Lexeme.toString_raw_plain _ _)

theorem name {s : String} (hs : IsIdentifier s) : Writes none (.symbol s) [s] := by
  apply single (fun n => .name hs) Bool.false_ne_true
  intro l x hl
  have hp := Parses.name (l := .plain .identifier s.toList) (w := x) rfl hl.not_assigns
    hl.endsOperand
  rw [Lexeme.toString_raw_plain] at hp
  exact hp

theorem sign {k : OpKind} (hk : k = .unaryPass ∨ k = .unaryMinus) (h : Writes none e ss) :
    Writes none (.unary k e) (k.symbol :: ss) := by
  intro n
  obtain ⟨l, w, hss, -, hw⟩ := h n
  have halone : EmitsAlone n k.symbol (.plain .operator k.symbol.toList) n := by
    rcases hk with rfl | rfl
    · exact .operator (k := .plus) (by decide)
    · exact .operator (k := .subtract) (by decide)
  refine ⟨_, _, .cons halone hss, Bool.false_ne_true, fun m x hm => ?_⟩
  have hsign : OpKind.ofSign? (Lexeme.plain .operator k.symbol.toList).raw.toString = some k := by
    rw [Lexeme.toString_raw_plain]
    rcases hk with rfl | rfl <;> decide
  exact .sign rfl hsign (hw m x hm)

theorem binary {k : OpKind} {t : Tier} (hk : (k.symbol, k) ∈ operators t)
    (he : Writes (some t) e ss) (hf : Writes t.tighter f ts) :
    Writes (some t) (.binary k e f) (ss ++ k.symbol :: ts) := by
  intro n
  obtain ⟨l, v, hss, hl, hv⟩ := he n
  obtain ⟨m, w, hts, -, hw⟩ := hf n
  have hmem : k ∈ OpKind.binary := (binary_of_ofBinary? (mem_operators.1 hk).1).1
  refine ⟨l, _, hss.append (.cons (.operator hmem) hts), hl, ?_⟩
  have hp := Opens.binary (l := .plain .operator k.symbol.toList) hk ⟨rfl, rfl⟩ hv hw
  simpa [Lexeme.unnested, Lexeme.plain] using hp

theorem call {s : String} (hs : IsIdentifier s) (h : Writes t e ss) :
    Writes none (.call s e) (s :: "(" :: ss ++ [")"]) := by
  intro n
  obtain ⟨w, hss, hw⟩ := h.enclosed .round n
  refine ⟨_, _, .cons (.name hs) hss, Bool.false_ne_true, fun l x _ => ?_⟩
  have hp := Parses.call (l := .plain .identifier s.toList) (m := .opening '(' 0) rfl rfl
    (hw _ (l :: x))
  rw [Lexeme.toString_raw_plain] at hp
  exact hp

theorem command {s : String} (hs : s = "print" ∨ s = "if") (h : Writes t e ss) :
    Writes none (.call s e) (s :: "(" :: ss ++ [")"]) := by
  intro n
  obtain ⟨w, hss, hw⟩ := h.enclosed .round n
  refine ⟨_, _, .cons (.keyword (mem_keywords hs)) hss,
    Bool.false_ne_true, fun l x hl => ?_⟩
  exact .command rfl (Lexeme.toString_raw_plain _ _) hs rfl (hw _ _) hl.endsOperand

theorem index {s : String} (hs : IsIdentifier s) (h : Writes t e ss) :
    Writes none (.binary .index (.symbol s) e) (s :: "[" :: ss ++ ["]"]) := by
  intro n
  obtain ⟨w, hss, hw⟩ := h.enclosed .square n
  refine ⟨_, _, .cons (.name hs) hss, Bool.false_ne_true, fun l x _ => ?_⟩
  have hp := Parses.index (l := .plain .identifier s.toList) (m := .opening '[' 0) rfl rfl
    (hw _ (l :: x))
  rw [Lexeme.toString_raw_plain] at hp
  exact hp

theorem parse (h : Writes t e ss) :
    Program.parse (" ".intercalate ss).toList = .ok ⟨[e]⟩ := by
  obtain ⟨l, w, hss, hl, hw⟩ := h.logical {}
  obtain ⟨hblank, hkind⟩ := not_or.1 (mt endsStatement_iff.2 hl)
  have hdone : ParsesAll [.eof] [] := .done (u := []) (List.forall_mem_nil _) rfl
  have hparses : Parses (.tier .logical) (l.unnested :: (w.map Lexeme.unnested ++ [.eof])) e
      [.eof] := hw.alone (.inr (.inl rfl))
  apply parse_of_parsesAll hss.spaced.lexes
  rw [List.map_append]
  exact .cons (u := []) (List.forall_mem_nil _) hblank hkind hparses rfl hdone

end Writes

end Grammar

theorem Expr.IsFormula.writes {e : Expr} (h : e.IsFormula) :
    Grammar.Writes e.tier? e e.tokens := by
  induction h with
  | integer hn => exact .integer hn
  | boolean b => exact .constant b
  | symbol hs => exact .name hs
  | @unary k e hk _ ih =>
    rw [tokens_unary hk]
    have hnone : (Expr.unary k e).tier? = none := rfl
    rw [hnone]
    apply Grammar.Writes.sign hk
    apply ih.bracketed
    intro hs
    rw [Option.isSome_eq_false_iff, Option.isNone_iff_eq_none] at hs
    rw [hs]
  | @binary k e f hk _ _ ihe ihf =>
    obtain ⟨t, ht⟩ := Grammar.exists_operators hk
    have htier : k.tier? = some t := (Grammar.mem_operators.1 ht).2
    have hroot : (Expr.binary k e f).tier? = some t := htier
    rw [tokens_binary htier, hroot]
    apply Grammar.Writes.binary ht
    · apply ihe.bracketed
      intro hle
      simpa using hle
    · apply ihf.bracketed
      intro hlt
      have hlt : Tier.level (some t) < Tier.level f.tier? := by simpa using hlt
      cases t <;> exact hlt
  | index hs _ ih => exact .index hs ih
  | call hs _ ih =>
    rcases hs with hs | hs
    · exact .call hs ih
    · exact .command hs ih

/-- The tokens of a tree, with brackets only where its operators need them, are read as the
tree. -/
theorem Program.parse_spaced {e : Expr} (h : e.IsFormula) :
    Program.parse e.spaced.toList = .ok ⟨[e]⟩ :=
  h.writes.parse

/-- A chain on the right, a sign before a looser operator, and an element inside a call. -/
theorem Program.parse_spaced_mixed :
    Program.parse "( a - ( b - 1 ) ) * - ( c || d ) < f ( x [ 2 ] )".toList =
      .ok ⟨[.binary .lessThan
        (.binary .multiply
          (.binary .subtract (.symbol "a")
            (.binary .subtract (.symbol "b") (.literal (.integer 1))))
          (.unary .unaryMinus (.binary .booleanOr (.symbol "c") (.symbol "d"))))
        (.call "f" (.binary .index (.symbol "x") (.literal (.integer 2))))]⟩ := by
  have letter (c : Char) (hc : c.isAlpha) (hk : ¬ keywords.contains (String.ofList [c])) :
      IsIdentifier (String.ofList [c]) := ⟨c, [], rfl, .inl hc, List.forall_mem_nil _, hk⟩
  have name (c : Char) (hc : c.isAlpha) (hk : ¬ keywords.contains (String.ofList [c])) :
      Expr.IsFormula (.symbol (String.ofList [c])) := .symbol (letter c hc hk)
  have hdifference := Expr.IsFormula.binary (k := .subtract) (by decide)
    (name 'a' (by decide) (by decide)) (.binary (k := .subtract) (by decide)
      (name 'b' (by decide) (by decide)) (.integer (n := 1) (by decide)))
  have hsign := Expr.IsFormula.unary (k := .unaryMinus) (.inr rfl) (.binary (k := .booleanOr)
    (by decide) (name 'c' (by decide) (by decide)) (name 'd' (by decide) (by decide)))
  have hcall := Expr.IsFormula.call (.inl (letter 'f' (by decide) (by decide)))
    (.index (letter 'x' (by decide) (by decide)) (.integer (n := 2) (by decide)))
  have hall := Expr.IsFormula.binary (k := .lessThan) (by decide)
    (.binary (k := .multiply) (by decide) hdifference hsign) hcall
  refine Eq.trans (congrArg (Program.parse ∘ String.toList) ?_) (parse_spaced hall)
  decide +kernel

end Reckon
