import Reckon.Proofs.Acceptance
import Reckon.Proofs.Relexing

namespace Reckon

namespace Grammar

/-- The words with brackets around every operator: a part of the grammar. -/
inductive Spells : Phrase → List Lexeme → Expr → Prop where
  | operand {w : List Lexeme} {e : Expr} : Spells .factor w e → Spells (.tier .logical) w e
  | sign {l : Lexeme} {w : List Lexeme} {s : String} {k : OpKind} {e : Expr} :
    (s, k) ∈ signs → l.Is .operator s → Spells .factor w e →
    Spells (.tier .logical) (l :: w) (.unary k e)
  | binary {t : Tier} {v w : List Lexeme} {l : Lexeme} {s : String} {k : OpKind} {e f : Expr} :
    (s, k) ∈ operators t → Spells .factor v e → l.Is .operator s → Spells .factor w f →
    Spells (.tier .logical) (v ++ l :: w) (.binary k e f)
  | assignment {l m : Lexeme} {w : List Lexeme} {e : Expr} :
    l.kind = .identifier → m.Is .operator "=" → Spells .factor w e →
    Spells (.tier .logical) (l :: m :: w) (.binary .assignment (.symbol l.raw.toString) e)
  | numeral {l : Lexeme} {v : Literal} :
    l.kind = .numeric → Token.literal { toLexeme := l } = .ok v → Spells .factor [l] (.literal v)
  | string {l : Lexeme} : l.kind = .string → Spells .factor [l] (.literal (.string l.raw))
  | constant {l : Lexeme} {b : Bool} :
    l.Is .keyword (.ofString (if b then "true" else "false")) →
    Spells .factor [l] (.literal (.boolean b))
  | name {l : Lexeme} : l.kind = .identifier → Spells .factor [l] (.symbol l.raw.toString)
  | group {w : List Lexeme} {e : Expr} : Spells (.enclosed .round) w e → Spells .factor w e
  | call {l : Lexeme} {w : List Lexeme} {e : Expr} :
    l.kind = .identifier → Spells (.enclosed .round) w e →
    Spells .factor (l :: w) (.call l.raw.toString e)
  | index {l : Lexeme} {w : List Lexeme} {e : Expr} :
    l.kind = .identifier → Spells (.enclosed .square) w e →
    Spells .factor (l :: w) (.binary .index (.symbol l.raw.toString) e)
  | command {l : Lexeme} {word : String} {w : List Lexeme} {e : Expr} :
    word = "print" ∨ word = "if" → l.Is .keyword word → Spells (.enclosed .round) w e →
    Spells .factor (l :: w) (.call word e)
  | block {l : Lexeme} {word : String} {v w : List Lexeme} {e f : Expr} :
    word = "print" ∨ word = "if" → l.Is .keyword word → Spells (.enclosed .round) v e →
    Spells (.enclosed .curly) w f → Spells .factor (l :: v ++ w) (.define word e f)
  | enclosed {b : Bracket} {l m : Lexeme} {w : List Lexeme} {e : Expr} :
    l.Is .punctuation (.ofChars [b.opener]) → Spells (.tier .logical) w e →
    m.Is .punctuation (.ofChars [b.closer]) → Spells (.enclosed b) (l :: w ++ [m]) e

namespace Spells

variable {p : Phrase} {w : List Lexeme} {e : Expr}

theorem derives (h : Spells p w e) : Derives p w e := by
  have lift {w : List Lexeme} {e : Expr} (h : Derives .factor w e) :
      Derives (.tier .logical) w e := .operand (.operand (.operand h))
  induction h with
  | operand _ ih => exact lift ih
  | sign hs hl _ ih => exact lift (.sign hs hl ih)
  | @binary t _ _ _ _ _ _ _ hs _ hl _ ihe ihf =>
    cases t with
    | logical => exact .binary (lift ihe) hs hl (.operand (.operand ihf))
    | expression => exact .operand (.binary (.operand (.operand ihe)) hs hl (.operand ihf))
    | term => exact .operand (.operand (.binary (.operand ihe) hs hl ihf))
  | assignment hl hm _ ih => exact lift (.assignment hl hm (lift ih))
  | numeral hl hv => exact .numeral hl hv
  | string hl => exact .string hl
  | constant hl => exact .constant hl
  | name hl => exact .name hl
  | group _ ih => exact .group ih
  | call hl _ ih => exact .call hl ih
  | index hl _ ih => exact .index hl ih
  | command hw hl _ ih => exact .command hw hl ih
  | block hw hl _ _ ih ih' => exact .block hw hl ih ih'
  | @enclosed _ l _ w _ hl _ hm ih =>
    have h := Derives.enclosed (u := []) (w := []) hl (List.forall_mem_nil _) ih
      (List.forall_mem_nil _) hm
    rwa [List.append_nil] at h

theorem head (h : Spells p w e) : ∃ l v, w = l :: v ∧ ¬ l.isBlank := by
  induction h with
  | operand _ ih => exact ih
  | sign _ hl => exact ⟨_, _, rfl, Cursor.not_isBlank_of_kind hl.1 (by decide)⟩
  | binary _ _ _ _ ih =>
    obtain ⟨l, v, rfl, hl⟩ := ih
    exact ⟨l, _, rfl, hl⟩
  | assignment hl => exact ⟨_, _, rfl, Cursor.not_isBlank_of_kind hl (by decide)⟩
  | numeral hl => exact ⟨_, _, rfl, Cursor.not_isBlank_of_kind hl (by decide)⟩
  | string hl => exact ⟨_, _, rfl, Cursor.not_isBlank_of_kind hl (by decide)⟩
  | constant hl => exact ⟨_, _, rfl, Cursor.not_isBlank_of_kind hl.1 (by decide)⟩
  | name hl => exact ⟨_, _, rfl, Cursor.not_isBlank_of_kind hl (by decide)⟩
  | group _ ih => exact ih
  | call hl => exact ⟨_, _, rfl, Cursor.not_isBlank_of_kind hl (by decide)⟩
  | index hl => exact ⟨_, _, rfl, Cursor.not_isBlank_of_kind hl (by decide)⟩
  | command _ hl => exact ⟨_, _, rfl, Cursor.not_isBlank_of_kind hl.1 (by decide)⟩
  | block _ hl => exact ⟨_, _, rfl, Cursor.not_isBlank_of_kind hl.1 (by decide)⟩
  | enclosed hl => exact ⟨_, _, rfl, Cursor.not_isBlank_of_kind hl.1 (by decide)⟩

end Spells

section Tiers

variable {c d : Cursor} {e : Expr}

theorem reads_alone (t : Tier) (h : Cursor.Reads (.ofTier t.tighter) c e d)
    (hd : t.Stops d.current.toLexeme) : Cursor.Reads (.tier t) c e d := .tier h (.stop hd)

theorem reads_logical (h : Cursor.Reads .factor c e d) (hd : EndsSequence d.current.toLexeme) :
    Cursor.Reads (.tier .logical) c e d :=
  reads_alone .logical (reads_alone .expression (reads_alone .term h (hd.stops _)) (hd.stops _))
    (hd.stops _)

theorem reads_binary {t : Tier} {a b : Cursor} {s : String} {k : OpKind} {f : Expr}
    (hs : (s, k) ∈ operators t) (he : Cursor.Reads .factor c e a)
    (ha : a.current.toLexeme.Is .operator s) (hstep : a.Step b) (hf : Cursor.Reads .factor b f d)
    (hd : EndsSequence d.current.toLexeme) :
    Cursor.Reads (.tier .logical) c (.binary k e f) d := by
  obtain ⟨hb, hk⟩ := mem_operators.1 hs
  rw [← ha.toString_raw] at hb
  have hstop (t' : Tier) (ht : t ≠ t') : t'.Stops a.current.toLexeme :=
    Joins.stops ⟨s, k, hs, ha⟩ ht
  -- The operands pass alone through the tiers that bind tighter than the operator.
  have join {t' : Tier} (ht : t' = t) (he : Cursor.Reads (.ofTier t'.tighter) c e a)
      (hf : Cursor.Reads (.ofTier t'.tighter) b f d) :
      Cursor.Reads (.tier t') c (.binary k e f) d :=
    .tier he (.more ha.1 hb (ht ▸ hk) hstep hf (.stop (hd.stops t')))
  cases t with
  | term =>
    have hall := reads_alone .expression (join rfl he hf) (hd.stops _)
    exact reads_alone .logical hall (hd.stops _)
  | expression =>
    have hleft := reads_alone .term he (hstop .term (by decide))
    have hright := reads_alone .term hf (hd.stops _)
    exact reads_alone .logical (join rfl hleft hright) (hd.stops _)
  | logical =>
    have hleft := reads_alone .expression (reads_alone .term he (hstop .term (by decide)))
      (hstop .expression (by decide))
    have hright := reads_alone .expression (reads_alone .term hf (hd.stops _)) (hd.stops _)
    exact join rfl hleft hright

end Tiers

/-- Between two cursors the tree is read, if the token after it lets the phrase end there. -/
def ReadsBack : Phrase → Cursor → Expr → Cursor → Prop
  | .factor, c, e, d =>
    Cursor.endsOperand d.current.toLexeme → ¬ d.current.isOperator "=" → Cursor.Reads .factor c e d
  | .tier _, c, e, d => EndsSequence d.current.toLexeme → Cursor.Reads (.tier .logical) c e d
  | .enclosed b, c, e, d => c.current.isOpening b.opener ∧ Cursor.Reads (.delimited b) c e d

theorem Spells.readsBack {p : Phrase} {w : List Lexeme} {e : Expr} (h : Spells p w e)
    {c d : Cursor} {n : Nesting} (hc : c.At n) (hs : c.Steps w d) : ReadsBack p c e d := by
  induction h generalizing c d n with
  | operand h ih =>
    intro hd
    exact reads_logical (ih hc hs hd.endsOperand hd.not_assigns) hd
  | sign hsign hl h ih =>
    intro hd
    obtain ⟨rfl, c', hstep, hs'⟩ := Cursor.steps_cons.1 hs
    have he := ih (hc.step hstep) hs' hd.endsOperand hd.not_assigns
    have hk : OpKind.ofSign? c.current.raw.toString = some _ :=
      hl.toString_raw ▸ mem_signs.1 hsign
    exact reads_logical (.sign hl.1 hk hstep he) hd
  | binary hop he hl hf ihe ihf =>
    intro hd
    obtain ⟨a, hca, had⟩ := Cursor.steps_append.1 hs
    obtain ⟨rfl, b, hstep, hbd⟩ := Cursor.steps_cons.1 had
    obtain ⟨_, ha⟩ := hc.steps hca
    have hjoins : Joins _ a.current.toLexeme := ⟨_, _, hop, hl⟩
    have hleft := ihe hc hca hjoins.endsOperand hjoins.not_assigns
    have hright := ihf (ha.step hstep) hbd hd.endsOperand hd.not_assigns
    exact reads_binary hop hleft hl hstep hright hd
  | assignment hl hm h ih =>
    intro hd
    obtain ⟨rfl, c', hstep, hs'⟩ := Cursor.steps_cons.1 hs
    obtain ⟨rfl, c'', hstep', hs''⟩ := Cursor.steps_cons.1 hs'
    have he := ih ((hc.step hstep).step hstep') hs'' hd.endsOperand hd.not_assigns
    have ho : c'.current.isOperator "=" := by simp [Lexeme.isOperator, hm.1, hm.2]
    exact reads_logical (.assignment hl hstep ho hstep' (reads_logical he hd)) hd
  | numeral hl hv =>
    intro hd hd'
    obtain ⟨rfl, hstep⟩ := Cursor.steps_singleton.1 hs
    exact .numeral hl (literal_congr hv rfl) hstep
  | string hl =>
    intro hd hd'
    obtain ⟨rfl, hstep⟩ := Cursor.steps_singleton.1 hs
    exact .string hl hstep
  | constant hl =>
    intro hd hd'
    obtain ⟨rfl, hstep⟩ := Cursor.steps_singleton.1 hs
    exact .constant hl.1 hl.toString_raw hstep
  | name hl =>
    intro hd hd'
    obtain ⟨rfl, hstep⟩ := Cursor.steps_singleton.1 hs
    exact .name hl hstep hd' hd
  | group h ih =>
    intro hd hd'
    obtain ⟨ho, he⟩ := ih hc hs
    exact .group ho he
  | call hl h ih =>
    intro hd hd'
    obtain ⟨rfl, c', hstep, hs'⟩ := Cursor.steps_cons.1 hs
    obtain ⟨ho, he⟩ := ih (hc.step hstep) hs'
    exact .call hl hstep ho he
  | index hl h ih =>
    intro hd hd'
    obtain ⟨rfl, c', hstep, hs'⟩ := Cursor.steps_cons.1 hs
    obtain ⟨ho, he⟩ := ih (hc.step hstep) hs'
    exact .index hl hstep ho he
  | command hw hl h ih =>
    intro hd hd'
    obtain ⟨rfl, c', hstep, hs'⟩ := Cursor.steps_cons.1 hs
    obtain ⟨ho, he⟩ := ih (hc.step hstep) hs'
    exact .command hl.1 hl.toString_raw hw hstep ho he hd
  | block hw hl h h' ih ih' =>
    intro hd hd'
    obtain ⟨m, hcm, hmd⟩ := Cursor.steps_append.1 hs
    obtain ⟨rfl, c', hstep, hs'⟩ := Cursor.steps_cons.1 hcm
    obtain ⟨ho, he⟩ := ih (hc.step hstep) hs'
    obtain ⟨_, hm⟩ := hc.steps hcm
    obtain ⟨ho', hf⟩ := ih' hm hmd
    exact .block hl.1 hl.toString_raw hw hstep ho he ho' hf
  | @enclosed _ l m w _ hl h hm ih =>
    have hinner : Balanced ([] ++ w ++ []) := by
      rw [List.nil_append, List.append_nil]
      exact h.derives.balanced
    have hs : c.Steps (l :: [] ++ w ++ [] ++ [m]) d := by
      rw [List.append_nil]
      exact hs
    obtain ⟨hopen, a, f, _, ha, haf, hends, hread⟩ := reads_enclosed hl hm (List.forall_mem_nil _)
      (List.forall_mem_nil _) hinner h.head hc hs
    exact ⟨hopen, hread _ (ih ha haf hends)⟩

inductive SpellsAll : List Lexeme → List Expr → Prop where
  | nil : SpellsAll [] []
  | cons {v w : List Lexeme} {l : Lexeme} {e : Expr} {es : List Expr} :
    Spells (.tier .logical) v e → l.kind = .eol → SpellsAll w es → SpellsAll (v ++ l :: w) (e :: es)

theorem SpellsAll.readsAll {u w : List Lexeme} {es : List Expr} {c d : Cursor} {n : Nesting}
    (h : SpellsAll w es) (hu : Blanks u) (hc : c.At n) (hs : c.Steps (u ++ w) d)
    (hd : d.current.kind = .eof) : c.ReadsAll es d := by
  induction h generalizing u c n with
  | nil =>
    rw [List.append_nil] at hs
    exact .done ⟨⟨u, hu, hs⟩, by simp [Lexeme.isBlank, hd]⟩ hd
  | @cons v w l e es he hl _ ih =>
    obtain ⟨a, hca, had⟩ := Cursor.steps_append.1 hs
    obtain ⟨f, haf, hfd⟩ := Cursor.steps_append.1 had
    obtain ⟨_, ha⟩ := hc.steps hca
    obtain ⟨_, hf⟩ := ha.steps haf
    have hblank : l.isBlank := by simp [Lexeme.isBlank, hl]
    have hlast := (Cursor.steps_cons.1 hfd).1
    have hall := ih (u := [l]) (List.forall_mem_singleton.2 hblank) hf hfd
    have hread := he.readsBack ha haf (.inl (hlast ▸ hblank))
    obtain ⟨m, v', rfl, hfirst⟩ := he.head
    obtain ⟨rfl, a', hstep, -⟩ := Cursor.steps_cons.1 haf
    have hend : endsStatement f.current.toLexeme := endsStatement_iff.2 (.inl (hlast ▸ hblank))
    exact .cons ⟨⟨u, hu, hca⟩, hfirst⟩ hstep.1 hread hend hall

theorem SpellsAll.parse {source : List Char} {w : List Lexeme} {es : List Expr}
    (h : SpellsAll w es) (hlex : Lexes source (w ++ [.eof])) :
    Program.parse source = .ok ⟨es⟩ := by
  obtain ⟨c, d, w', hfirst, hc, hs, hd, hw⟩ := hlex.steps
  obtain ⟨rfl, -⟩ := List.append_inj' hw rfl
  have hall := h.readsAll (u := []) (List.forall_mem_nil _) hc hs hd
  exact Program.parse_eq_ok.2 ⟨c, d, hfirst, hall⟩

end Grammar

namespace Expr

theorem text_unary {k : OpKind} (hk : k = .unaryPass ∨ k = .unaryMinus) (e : Expr) :
    (unary k e).text = "(" ++ k.symbol ++ e.text ++ ")" := by
  rcases hk with rfl | rfl <;> rfl

theorem text_binary {k : OpKind} (hk : k = .assignment ∨ k ∈ OpKind.binary) (e f : Expr) :
    (binary k e f).text = "(" ++ e.text ++ " " ++ k.symbol ++ " " ++ f.text ++ ")" := by
  simp only [OpKind.binary, List.mem_cons, List.not_mem_nil, or_false] at hk
  rcases hk with rfl | rfl | rfl | rfl | rfl | rfl | rfl | rfl | rfl | rfl | rfl | rfl | rfl <;> rfl

theorem text_index (e f : Expr) : (binary .index e f).text = e.text ++ "[" ++ f.text ++ "]" := rfl

theorem text_call (s : String) (e : Expr) : (call s e).text = s ++ "(" ++ e.text ++ ")" := rfl

theorem text_define (s : String) (e f : Expr) :
    (define s e f).text = s ++ "(" ++ e.text ++ ") \x7b " ++ f.text ++ " \x7d" := rfl

mutual

def literals : Expr → List Literal
  | .missing => []
  | .literal l => [l]
  | .apply _ args => literalsAll args

def literalsAll : List Expr → List Literal
  | [] => []
  | e :: es => e.literals ++ literalsAll es

end

@[simp] theorem literals_unary (k : OpKind) (e : Expr) : (unary k e).literals = e.literals := by
  simp [unary, literals, literalsAll]

@[simp] theorem literals_binary (k : OpKind) (e f : Expr) :
    (binary k e f).literals = e.literals ++ f.literals := by
  simp [binary, literals, literalsAll]

@[simp] theorem literals_call (s : String) (e : Expr) : (call s e).literals = e.literals := by
  simp [call, literals, literalsAll]

@[simp] theorem literals_define (s : String) (e f : Expr) :
    (define s e f).literals = e.literals ++ f.literals := by
  simp [define, literals, literalsAll]

end Expr

/-- A string of printable characters, a number written with a point and without an exponent, or
any other literal. -/
def Literal.Printable : Literal → Prop
  | .string s => ∀ c ∈ s.chars, Text.isPrintable c
  | .float x => '.' ∈ x.text.toList ∧ 'e' ∉ x.text.toList
  | _ => True

theorem int32?_digits {c : Char} {ds : List Char} (hc : c.isDigit) (hds : AllDigits ds) :
    int32? (c :: ds) = if ofDigits (c :: ds) < Nat.pow 2 31 then some (.ofInt (ofDigits (c :: ds)))
      else none := by
  have hread : decimal? (c :: ds) = some (ofDigits (c :: ds)) :=
    if_pos ⟨List.cons_ne_nil c ds, List.all_eq_true.2 (List.forall_mem_cons.2 ⟨hc, hds⟩)⟩
  unfold int32?
  rw [splitSign_eq (.inl hc)]
  dsimp only
  rw [hread]
  simp

theorem int32?_text {n : Int32} (hn : 0 ≤ n.toInt) :
    ∃ c ds, (toString n.toInt).toList = c :: ds ∧ c.isDigit ∧ AllDigits ds ∧
      int32? (c :: ds) = some n := by
  obtain ⟨m, hm⟩ := Int.eq_ofNat_of_zero_le hn
  have htext : (toString n.toInt).toList = Nat.toDigits 10 m := by
    rw [hm]
    exact String.toList_ofList
  have hall : AllDigits (Nat.toDigits 10 m) := fun c hc =>
    Nat.isDigit_of_mem_toDigits (by decide) (by decide) hc
  have hvalue : ofDigits (Nat.toDigits 10 m) = m := Nat.ofDigitChars_ten_toDigits
  rw [htext]
  cases hdigits : Nat.toDigits 10 m with
  | nil => exact absurd hdigits Nat.toDigits_ne_nil
  | cons c ds =>
    rw [hdigits] at hall hvalue
    obtain ⟨hc, hds⟩ := List.forall_mem_cons.1 hall
    refine ⟨c, ds, rfl, hc, hds, ?_⟩
    have hlt : m < Nat.pow 2 31 := by
      have := n.toInt_lt
      rw [hm] at this
      simpa using this
    rw [int32?_digits hc hds, hvalue, if_pos hlt, ← hm, Int32.ofInt_toInt]

theorem Single.text_point {x : Single} (hf : x.exponentField ≠ 255) (hx : ¬ x.negative)
    (hdot : '.' ∈ x.text.toList) (he : 'e' ∉ x.text.toList) :
    ∃ c ds es, x.text.toList = c :: ds ++ '.' :: es ∧ c.isDigit ∧ AllDigits ds ∧ AllDigits es := by
  rw [text_toList hf hx] at hdot he ⊢
  obtain ⟨front, es, htext, hfront, hf, -, hes, -⟩ := decimalText_point hdot he
  obtain ⟨c, ds, rfl⟩ := List.exists_cons_of_ne_nil hfront
  obtain ⟨hc, hds⟩ := List.forall_mem_cons.1 hf
  exact ⟨c, ds, es, htext, hc, hds, hes⟩

def Apart (s : String) : Prop := ∃ c cs, s.toList = c :: cs ∧ c ∉ ['=', '+', '-']

theorem Apart.append {s : String} (h : Apart s) (t : String) : Apart (s ++ t) := by
  obtain ⟨c, cs, hs, hc⟩ := h
  exact ⟨c, cs ++ t.toList, by rw [String.toList_append, hs, List.cons_append], hc⟩

theorem apart_of_isNameChar {s : String} {c : Char} {cs : List Char} (hs : s.toList = c :: cs)
    (hc : isNameChar c) : Apart s := by
  refine ⟨c, cs, hs, ?_⟩
  simp only [List.mem_cons, List.not_mem_nil, or_false, not_or]
  exact ⟨ne_of_isNameChar hc rfl, ne_of_isNameChar hc rfl, ne_of_isNameChar hc rfl⟩

theorem IsIdentifier.apart {s : String} (h : IsIdentifier s) : Apart s := by
  obtain ⟨c, cs, rfl, hc, -⟩ := h
  exact apart_of_isNameChar String.toList_ofList (isNameChar_of_isAlpha hc)

namespace Expr

variable {e : Expr}

theorem WellFormed.apart (h : e.WellFormed) (hp : ∀ l ∈ e.literals, l.Printable) :
    Apart e.text := by
  have opened : Apart "(" := ⟨'(', [], rfl, by decide⟩
  have word {s : String} (hs : s = "print" ∨ s = "if") : Apart s := by
    rcases hs with rfl | rfl <;> exact apart_of_isNameChar rfl rfl
  cases h with
  | integer hn =>
    obtain ⟨c, ds, htext, hc, -⟩ := int32?_text hn
    exact apart_of_isNameChar htext (isNameChar_of_isDigit hc)
  | float hf hx =>
    obtain ⟨hdot, he⟩ := hp _ (List.mem_singleton_self _)
    obtain ⟨c, ds, es, htext, hc, -⟩ := Single.text_point hf hx hdot he
    exact apart_of_isNameChar htext (isNameChar_of_isDigit hc)
  | string => exact ⟨'"', _, String.toList_ofList, by decide⟩
  | boolean b => cases b <;> exact apart_of_isNameChar rfl rfl
  | symbol hs => exact hs.apart
  | unary hk =>
    rw [text_unary hk]
    exact ((opened.append _).append _).append _
  | binary hk =>
    rw [text_binary (.inr hk)]
    exact (((((opened.append _).append _).append _).append _).append _).append _
  | assignment =>
    rw [text_binary (.inl rfl)]
    exact (((((opened.append _).append _).append _).append _).append _).append _
  | index hs => exact ((hs.apart.append _).append _).append _
  | call hs =>
    rw [text_call]
    rcases hs with hs | hs
    · exact ((hs.apart.append _).append _).append _
    · exact (((word hs).append _).append _).append _
  | define hs =>
    rw [text_define]
    exact ((((((word hs).append _).append _).append _).append _).append _)

end Expr

namespace Grammar

/-- Some characters are read as a word of a phrase with a tree, and leave the brackets open that
were open. -/
def Renders (p : Phrase) (e : Expr) (n : Nesting) (cs ds : List Char) : Prop :=
  ∃ w, Spells p w e ∧ Emits n cs w n ds

theorem mem_keywords {s : String} (hs : s = "print" ∨ s = "if") : s ∈ keywords := by
  rcases hs with rfl | rfl <;> decide

namespace Renders

variable {p : Phrase} {e f : Expr} {n : Nesting} {b : Bracket} {cs ds es : List Char}

theorem space (h : Renders p e n cs ds) : Renders p e n (' ' :: cs) ds := by
  obtain ⟨w, hw, hcs⟩ := h
  obtain ⟨l, v, rfl, -⟩ := hw.head
  exact ⟨_, hw, hcs.space⟩

theorem operand (h : Renders .factor e n cs ds) : Renders (.tier .logical) e n cs ds := by
  obtain ⟨w, hw, hcs⟩ := h
  exact ⟨w, .operand hw, hcs⟩

theorem enclosed (h : Renders (.tier .logical) e (n.inside b) cs (b.closer :: ds)) :
    Renders (.enclosed b) e n (b.opener :: cs) ds := by
  obtain ⟨w, hw, hcs⟩ := h
  exact ⟨_, .enclosed ⟨rfl, rfl⟩ hw ⟨rfl, rfl⟩, hcs.enclosed⟩

theorem padded (h : Renders (.tier .logical) e (n.inside b) cs (' ' :: b.closer :: ds)) :
    Renders (.enclosed b) e n (b.opener :: ' ' :: cs) ds := by
  obtain ⟨w, hw, hcs⟩ := h.space
  have hclosed := hcs.trans (Emits.closing n b ds).space
  exact ⟨_, .enclosed ⟨rfl, rfl⟩ hw ⟨rfl, rfl⟩, (Emits.opening n b _).cons hclosed⟩

theorem group (h : Renders (.enclosed .round) e n cs ds) : Renders .factor e n cs ds := by
  obtain ⟨w, hw, hcs⟩ := h
  exact ⟨w, .group hw, hcs⟩

theorem sign {k : OpKind} (hk : k = .unaryPass ∨ k = .unaryMinus) {c : Char}
    (hc : c ∉ ['=', '+', '-']) (h : Renders .factor e n (c :: cs) ds) :
    Renders (.tier .logical) (.unary k e) n (k.symbol.toList ++ c :: cs) ds := by
  obtain ⟨w, hw, hcs⟩ := h
  have hs : (k.symbol, k) ∈ signs := by
    rcases hk with rfl | rfl <;> simp [signs, OpKind.symbol, OpKind.info?]
  exact ⟨_, .sign hs ⟨rfl, rfl⟩ hw, (Emits.sign n cs hs hc).cons hcs⟩

theorem binary {k : OpKind} (hk : k ∈ OpKind.binary)
    (he : Renders .factor e n cs (' ' :: (k.symbol.toList ++ ' ' :: ds)))
    (hf : Renders .factor f n ds es) : Renders (.tier .logical) (.binary k e f) n cs es := by
  obtain ⟨v, hv, hcs⟩ := he
  obtain ⟨w, hw, hds⟩ := hf.space
  obtain ⟨t, hs⟩ := exists_operators hk
  have hop := (Emits.operator n ds (.inr ⟨k, hk, rfl⟩)).space
  exact ⟨_, .binary hs hv ⟨rfl, rfl⟩ hw, hcs.trans (hop.cons hds)⟩

section Name

variable {s : String}

theorem name (hs : IsIdentifier s) (hcs : Breaks cs) :
    Renders .factor (.symbol s) n (s.toList ++ cs) cs := by
  have h := Spells.name (l := .plain .identifier s.toList) rfl
  rw [Lexeme.toString_raw_plain] at h
  exact ⟨_, h, .name hs hcs⟩

theorem assignment (hs : IsIdentifier s) (h : Renders .factor e n cs ds) :
    Renders (.tier .logical) (.binary .assignment (.symbol s) e) n
      (s.toList ++ ' ' :: '=' :: ' ' :: cs) ds := by
  obtain ⟨w, hw, hcs⟩ := h.space
  have h := Spells.assignment (l := .plain .identifier s.toList) (m := .plain .operator ['=']) rfl
    ⟨rfl, rfl⟩ hw
  rw [Lexeme.toString_raw_plain] at h
  have hbreak : Breaks (' ' :: '=' :: ' ' :: cs) := .cons (by simp [breaks])
  have hop : Emits n (' ' :: '=' :: ' ' :: cs) _ n _ := (Emits.operator n cs (.inl rfl)).space
  exact ⟨_, h, (Emits.name hs hbreak).cons (hop.cons hcs)⟩

theorem call (hs : IsIdentifier s) (h : Renders (.enclosed .round) e n ('(' :: cs) ds) :
    Renders .factor (.call s e) n (s.toList ++ '(' :: cs) ds := by
  obtain ⟨w, hw, hcs⟩ := h
  have h := Spells.call (l := .plain .identifier s.toList) rfl hw
  rw [Lexeme.toString_raw_plain] at h
  exact ⟨_, h, (Emits.name hs (.cons (by simp [breaks]))).cons hcs⟩

theorem index (hs : IsIdentifier s) (h : Renders (.enclosed .square) e n ('[' :: cs) ds) :
    Renders .factor (.binary .index (.symbol s) e) n (s.toList ++ '[' :: cs) ds := by
  obtain ⟨w, hw, hcs⟩ := h
  have h := Spells.index (l := .plain .identifier s.toList) rfl hw
  rw [Lexeme.toString_raw_plain] at h
  exact ⟨_, h, (Emits.name hs (.cons (by simp [breaks]))).cons hcs⟩

theorem command (hs : s = "print" ∨ s = "if")
    (h : Renders (.enclosed .round) e n ('(' :: cs) ds) :
    Renders .factor (.call s e) n (s.toList ++ '(' :: cs) ds := by
  obtain ⟨w, hw, hcs⟩ := h
  have hword : Emits n (s.toList ++ '(' :: cs) _ n _ :=
    .keyword (mem_keywords hs) (.cons (by simp [breaks]))
  exact ⟨_, .command hs ⟨rfl, rfl⟩ hw, hword.cons hcs⟩

theorem block (hs : s = "print" ∨ s = "if")
    (he : Renders (.enclosed .round) e n ('(' :: cs) ds)
    (hf : Renders (.enclosed .curly) f n ds es) :
    Renders .factor (.define s e f) n (s.toList ++ '(' :: cs) es := by
  obtain ⟨v, hv, hcs⟩ := he
  obtain ⟨w, hw, hds⟩ := hf
  have hword : Emits n (s.toList ++ '(' :: cs) _ n _ :=
    .keyword (mem_keywords hs) (.cons (by simp [breaks]))
  exact ⟨_, .block hs ⟨rfl, rfl⟩ hv hw, (hword.cons hcs).trans hds⟩

end Name

theorem integer {v : Int32} (hv : 0 ≤ v.toInt) (hcs : Breaks cs) :
    Renders .factor (.literal (.integer v)) n ((toString v.toInt).toList ++ cs) cs := by
  obtain ⟨c, ds, htext, hc, hds, hread⟩ := int32?_text hv
  have hl : Token.literal { toLexeme := .numeral (c :: ds) false } = .ok (.integer v) := by
    simp [Token.literal, Lexeme.numeral, hread]
  rw [htext]
  exact ⟨_, .numeral rfl hl, .digits hc hds hcs⟩

theorem float {x : Single} (hf : x.exponentField ≠ 255) (hx : ¬ x.negative)
    (hp : (Literal.float x).Printable) (hcs : Breaks cs) :
    Renders .factor (.literal (.float x)) n (x.text.toList ++ cs) cs := by
  obtain ⟨c, ds, es, htext, hc, hds, hes⟩ := Single.text_point hf hx hp.1 hp.2
  have hread := Single.read?_text hf hx hp.1 hp.2
  rw [htext] at hread ⊢
  have hl : Token.literal { toLexeme := .numeral (c :: ds ++ '.' :: es) true } =
      .ok (.float x) := by
    simp only [Token.literal, Lexeme.numeral, Text.chars_ofChars, hread]
    rfl
  exact ⟨_, .numeral rfl hl, .point hc hds hes hcs⟩

theorem string {s : List Char} (hs : '\\' ∉ s) (hp : (Literal.string (.ofChars s)).Printable) :
    Renders .factor (.literal (.string (.ofChars s))) n ((Text.ofChars s).quote.toList ++ cs)
      cs := by
  simp only [Literal.Printable, Text.chars_ofChars] at hp
  exact ⟨_, .string (l := .plain .string s) rfl, .quote hp hs cs⟩

theorem constant (v : Bool) (hcs : Breaks cs) :
    Renders .factor (.literal (.boolean v)) n ((Literal.boolean v).text.toList ++ cs) cs := by
  have hword : (Literal.boolean v).text ∈ keywords := by cases v <;> decide
  exact ⟨_, .constant (l := .plain .keyword _) ⟨rfl, rfl⟩, .keyword hword hcs⟩

end Renders

end Grammar

theorem Expr.WellFormed.renders {e : Expr} (h : e.WellFormed)
    (hp : ∀ l ∈ e.literals, l.Printable) (n : Nesting) {cs : List Char} (hcs : Breaks cs) :
    Grammar.Renders .factor e n (e.text.toList ++ cs) cs := by
  have stop (c : Char) (hc : c ∈ breaks) (cs : List Char) : Breaks (c :: cs) := .cons hc
  -- An operand stands between brackets and before more of the text, hence any `n` and `cs`.
  induction h generalizing n cs with
  | integer hn => exact .integer hn hcs
  | float hf hx => exact .float hf hx (hp _ (List.mem_singleton_self _)) hcs
  | string hs => exact .string hs (hp _ (List.mem_singleton_self _))
  | boolean b => exact .constant b hcs
  | symbol hs => exact .name hs hcs
  | @unary k e hk he ih =>
    rw [literals_unary] at hp
    obtain ⟨c, ds, htext, hc⟩ := he.apart hp
    have htree := ih hp (n.inside .round) (stop ')' (by decide) cs)
    rw [htext] at htree
    have h := (Grammar.Renders.sign hk hc htree).enclosed.group
    simp only [text_unary hk, String.toList_append, htext, List.append_assoc]
    exact h
  | @binary k e f hk _ _ ihe ihf =>
    rw [literals_binary] at hp
    obtain ⟨hpe, hpf⟩ := List.forall_mem_append.1 hp
    have hright := ihf hpf (n.inside .round) (stop ')' (by decide) cs)
    have hleft := ihe hpe (n.inside .round) (stop ' ' (by decide)
      (k.symbol.toList ++ ' ' :: (f.text.toList ++ ')' :: cs)))
    have h := (Grammar.Renders.binary hk hleft hright).enclosed.group
    simp only [text_binary (.inr hk), String.toList_append, List.append_assoc]
    exact h
  | @assignment s e hs _ ih =>
    rw [literals_binary] at hp
    obtain ⟨-, hp⟩ := List.forall_mem_append.1 hp
    have htree := ih hp (n.inside .round) (stop ')' (by decide) cs)
    have h := (Grammar.Renders.assignment hs htree).enclosed.group
    simp only [text_binary (.inl rfl), String.toList_append, List.append_assoc]
    exact h
  | @index s e hs _ ih =>
    rw [literals_binary] at hp
    obtain ⟨-, hp⟩ := List.forall_mem_append.1 hp
    have htree := ih hp (n.inside .square) (stop ']' (by decide) cs)
    have h := Grammar.Renders.index hs htree.operand.enclosed
    simp only [text_index, String.toList_append, List.append_assoc]
    exact h
  | @call s e hs _ ih =>
    rw [literals_call] at hp
    have htree := ih hp (n.inside .round) (stop ')' (by decide) cs)
    simp only [text_call, String.toList_append, List.append_assoc]
    rcases hs with hs | hs
    · exact .call hs htree.operand.enclosed
    · exact .command hs htree.operand.enclosed
  | @define s e f hs _ _ ihe ihf =>
    rw [literals_define] at hp
    obtain ⟨hpe, hpf⟩ := List.forall_mem_append.1 hp
    have hbody := ihf hpf (n.inside .curly) (stop ' ' (by decide) ('\x7d' :: cs))
    have htree := ihe hpe (n.inside .round) (stop ')' (by decide)
      (' ' :: '\x7b' :: ' ' :: (f.text.toList ++ ' ' :: '\x7d' :: cs)))
    have h := Grammar.Renders.block hs htree.operand.enclosed hbody.operand.padded.space
    simp only [text_define, String.toList_append, List.append_assoc]
    exact h

theorem Program.toList_text (p : Program) :
    p.text.toList = p.exprs.flatMap fun e => e.text.toList ++ ['\n'] := by
  have hfold (s : String) (es : List Expr) :
      (es.foldl (fun lines e => lines ++ e.text ++ "\n") s).toList =
        s.toList ++ es.flatMap fun e => e.text.toList ++ ['\n'] := by
    induction es generalizing s with
    | nil => simp
    | cons e es ih => simp [ih]
  exact hfold "" p.exprs

theorem Grammar.emits_lines {es : List Expr} (hes : ∀ e ∈ es, e.WellFormed)
    (hp : ∀ e ∈ es, ∀ l ∈ e.literals, l.Printable) (n : Nesting) :
    ∃ w, SpellsAll w es ∧ Emits n (es.flatMap fun e => e.text.toList ++ ['\n']) w n [] := by
  induction es with
  | nil => exact ⟨[], .nil, fun pos => ⟨pos, .refl _⟩⟩
  | cons e es ih =>
    obtain ⟨he, hes⟩ := List.forall_mem_cons.1 hes
    obtain ⟨hpe, hp⟩ := List.forall_mem_cons.1 hp
    obtain ⟨w, hw, hlines⟩ := ih hes hp
    obtain ⟨v, hv, hline⟩ := (he.renders hpe n (.cons (c := '\n') (by decide))).operand
    have h := hline.trans ((Emits.eol n _).cons hlines)
    refine ⟨_, .cons (l := .plain .eol ['\n']) hv rfl hw, ?_⟩
    simpa using h

/-- The text of a parsed program is read as that program. -/
theorem Program.parse_text {source : List Char} {p : Program} (h : Program.parse source = .ok p)
    (hp : ∀ e ∈ p.exprs, ∀ l ∈ e.literals, l.Printable) :
    Program.parse p.text.toList = .ok p := by
  obtain ⟨w, hw, hlines⟩ := Grammar.emits_lines (wellFormed_of_parse h) hp {}
  rw [← toList_text] at hlines
  exact hw.parse hlines.lexes

/-- A block, a number with a trailing zero and a string with a quote. -/
theorem Program.parse_text_block :
    ∃ p, Program.parse "if (a < 1.50) \x7b print('b\"') \x7d\n".toList = .ok p ∧
      p.text = "if((a < 1.5)) \x7b print(\"b\\\"\") \x7d\n" ∧
      Program.parse p.text.toList = .ok p := by
  have hnumber : Token.literal { toLexeme := .numeral "1.50".toList true } =
      .ok (.float ⟨0x3FC00000⟩) := by decide +kernel
  have hcondition : Grammar.Spells (.tier .logical)
      [.plain .identifier ['a'], .plain .operator ['<'], .numeral "1.50".toList true]
      (.binary .lessThan (.symbol "a") (.literal (.float ⟨0x3FC00000⟩))) :=
    .binary (t := .term) (s := "<") (v := [_]) (by decide) (.name rfl) ⟨rfl, rfl⟩
      (.numeral rfl hnumber)
  have hbody : Grammar.Spells (.tier .logical)
      (.plain .keyword "print".toList :: .opening '(' 0 :: [.plain .string ['b', '"']] ++
        [.closing ')' 0]) (.call "print" (.literal (.string "b\""))) :=
    .operand (.command (.inl rfl) ⟨rfl, rfl⟩ (.enclosed ⟨rfl, rfl⟩
      (.operand (.string (l := .plain .string ['b', '"']) rfl)) ⟨rfl, rfl⟩))
  have hblock := Grammar.Spells.block (l := .plain .keyword "if".toList) (.inr rfl) ⟨rfl, rfl⟩
    (.enclosed (l := .opening '(' 0) (m := .closing ')' 0) ⟨rfl, rfl⟩ hcondition ⟨rfl, rfl⟩)
    (.enclosed (l := .opening '\x7b' 0) (m := .closing '\x7d' 0) ⟨rfl, rfl⟩ hbody ⟨rfl, rfl⟩)
  have hall := Grammar.SpellsAll.cons (l := .plain .eol ['\n']) (.operand hblock) rfl .nil
  have hparse : Program.parse "if (a < 1.50) \x7b print('b\"') \x7d\n".toList = .ok ⟨_⟩ :=
    hall.parse ⟨(lex _).1, Prod.ext rfl (by decide +kernel), by decide +kernel⟩
  have hfloat : (Literal.float ⟨0x3FC00000⟩).Printable :=
    ⟨by decide +kernel, by decide +kernel⟩
  have hstring : (Literal.string "b\"").Printable := List.all_eq_true.1 (by decide +kernel)
  have hprintable : ∀ l ∈ [Literal.symbol "a", .float ⟨0x3FC00000⟩, .string "b\""],
      l.Printable :=
    List.forall_mem_cons.2 ⟨trivial, List.forall_mem_cons.2 ⟨hfloat,
      List.forall_mem_singleton.2 hstring⟩⟩
  exact ⟨_, hparse, by decide +kernel, parse_text hparse (List.forall_mem_singleton.2 hprintable)⟩

end Reckon
