import Reckon.Program
import Reckon.Proofs.Lexing

namespace Reckon

/-- What a parser may be asked to read; a chain goes on behind an operand. -/
inductive Part where
  | factor
  | tier (t : Tier)
  | chain (t : Tier) (left : Expr)
  | delimited (b : Bracket)

def Part.ofTier : Option Tier → Part
  | none => .factor
  | some t => .tier t

/-- A chain of a tier ends before a lexeme. -/
def Tier.Stops (t : Tier) (l : Lexeme) : Prop :=
  l.kind = .operator →
    match OpKind.ofBinary? l.raw.toString with
    | none => t ≠ .logical
    | some k => k.tier? ≠ some t

namespace Tier.Stops

variable {t : Tier} {l : Lexeme}

theorem of_none (hb : OpKind.ofBinary? l.raw.toString = none) (ht : t ≠ .logical) : t.Stops l := by
  intro _
  rw [hb]
  exact ht

theorem of_some {k : OpKind} (hb : OpKind.ofBinary? l.raw.toString = some k)
    (ht : k.tier? ≠ some t) : t.Stops l := by
  intro _
  rw [hb]
  exact ht

end Tier.Stops

namespace Cursor

def Skips (c d : Cursor) : Prop :=
  (∃ u, (∀ l ∈ u, l.isBlank) ∧ c.Steps u d) ∧ ¬ d.current.isBlank

theorem Skips.refl {c : Cursor} (h : ¬ c.current.isBlank) : c.Skips c :=
  ⟨⟨[], List.forall_mem_nil _, .refl c⟩, h⟩

theorem Skips.skipBlank {c d : Cursor} (h : c.Skips d) : ∃ hd, c.skipBlank = .ok ⟨d, hd⟩ := by
  obtain ⟨⟨u, hu, hsteps⟩, hn⟩ := h
  exact hsteps.skipBlank hu hn

section Lookahead

variable {l : Lexeme} {a b : Char}

theorem not_endsOperand_of_isOpening (h : l.isOpening a) : ¬ endsOperand l := by
  simp only [Lexeme.isOpening, decide_eq_true_eq] at h
  simp [endsOperand, Lexeme.isClosing, h]

theorem not_isOperator_of_isOpening (h : l.isOpening a) (s : String) : ¬ l.isOperator s := by
  simp [Lexeme.isOperator, kind_of_isOpening h]

theorem isOpening_unique (h : l.isOpening a) (h' : l.isOpening b) : a = b := by
  simp only [Lexeme.isOpening, decide_eq_true_eq] at h h'
  simpa using Text.ofChars_injective (h.2.2.symm.trans h'.2.2)

end Lookahead

/-- An expression is read between two cursors. -/
inductive Reads : Part → Cursor → Expr → Cursor → Prop where
  | tier {t : Tier} {c d f : Cursor} {left e : Expr} :
    Reads (.ofTier t.tighter) c left d → Reads (.chain t left) d e f → Reads (.tier t) c e f
  | stop {t : Tier} {c : Cursor} {left : Expr} :
    t.Stops c.current.toLexeme → Reads (.chain t left) c left c
  | more {t : Tier} {c d e f : Cursor} {k : OpKind} {left right all : Expr} :
    c.current.kind = .operator → OpKind.ofBinary? c.current.raw.toString = some k →
    k.tier? = some t → c.Step d → Reads (.ofTier t.tighter) d right e →
    Reads (.chain t (.binary k left right)) e all f → Reads (.chain t left) c all f
  | numeral {c d : Cursor} {l : Literal} :
    c.current.kind = .numeric → c.current.literal = .ok l → c.Step d →
    Reads .factor c (.literal l) d
  | string {c d : Cursor} :
    c.current.kind = .string → c.Step d → Reads .factor c (.literal (.string c.current.raw)) d
  | constant {c d : Cursor} {b : Bool} :
    c.current.kind = .keyword → c.current.raw.toString = (if b then "true" else "false") →
    c.Step d → Reads .factor c (.literal (.boolean b)) d
  | sign {c d e : Cursor} {k : OpKind} {operand : Expr} :
    c.current.kind = .operator → OpKind.ofSign? c.current.raw.toString = some k → c.Step d →
    Reads .factor d operand e → Reads .factor c (.unary k operand) e
  | group {c d : Cursor} {e : Expr} :
    c.current.isOpening '(' → Reads (.delimited .round) c e d → Reads .factor c e d
  | name {c d : Cursor} :
    c.current.kind = .identifier → c.Step d → ¬ d.current.isOperator "=" →
    endsOperand d.current.toLexeme → Reads .factor c (.symbol c.current.raw.toString) d
  | assignment {c d e f : Cursor} {value : Expr} :
    c.current.kind = .identifier → c.Step d → d.current.isOperator "=" → d.Step e →
    Reads (.tier .logical) e value f →
    Reads .factor c (.binary .assignment (.symbol c.current.raw.toString) value) f
  | call {c d e : Cursor} {arg : Expr} :
    c.current.kind = .identifier → c.Step d → d.current.isOpening '(' →
    Reads (.delimited .round) d arg e → Reads .factor c (.call c.current.raw.toString arg) e
  | index {c d e : Cursor} {arg : Expr} :
    c.current.kind = .identifier → c.Step d → d.current.isOpening '[' →
    Reads (.delimited .square) d arg e →
    Reads .factor c (.binary .index (.symbol c.current.raw.toString) arg) e
  | command {c d e : Cursor} {word : String} {arg : Expr} :
    c.current.kind = .keyword → c.current.raw.toString = word → word = "print" ∨ word = "if" →
    c.Step d → d.current.isOpening '(' → Reads (.delimited .round) d arg e →
    endsOperand e.current.toLexeme → Reads .factor c (.call word arg) e
  | block {c d e f : Cursor} {word : String} {arg body : Expr} :
    c.current.kind = .keyword → c.current.raw.toString = word → word = "print" ∨ word = "if" →
    c.Step d → d.current.isOpening '(' → Reads (.delimited .round) d arg e →
    e.current.isOpening Bracket.curly.opener → Reads (.delimited .curly) e body f →
    Reads .factor c (.define word arg body) f
  | blank {c d f : Cursor} {e : Expr} :
    c.current.isBlank → c.Step d → Reads (.tier .logical) d e f → Reads .factor c e f
  | delimited {b : Bracket} {c d e f g i : Cursor} {expr : Expr} :
    c.Step d → d.Skips e → Reads (.tier .logical) e expr f → f.Skips g →
    g.current.toLexeme = .closing b.closer c.current.depth → g.Step i →
    Reads (.delimited b) c expr i

theorem kind_of_isBlank {l : Lexeme} (h : l.isBlank) : l.kind = .eol ∨ l.kind = .comment := by
  simpa [Lexeme.isBlank] using h

theorem not_isBlank_of_kind {l : Lexeme} {k : TokenKind} (hl : l.kind = k)
    (hk : k ≠ .eol ∧ k ≠ .comment) : ¬ l.isBlank := by
  subst hl
  simpa [Lexeme.isBlank] using hk

theorem kind_ne_of_isBlank {l : Lexeme} (h : l.isBlank) : l.kind ≠ .eof := by
  intro he
  simp [Lexeme.isBlank, he] at h

section Equations

variable {m : Type → Type} [Monad m] [Watch m] {c : Cursor}

theorem parseTier_none (c : Cursor) :
    (parseTier none c : m (Parsed c)) = (do Watch.note .call; parseFactor c) := by
  rw [parseTier.eq_def]

theorem parseFactor_numeric {l : Literal} (hk : c.current.kind = .numeric)
    (hl : c.current.literal = .ok l) :
    (parseFactor c : m (Parsed c)) = do
      Watch.note .call
      let ⟨d, hd⟩ ← c.take (by rw [hk]; nofun)
      return ⟨.literal l, d, hd⟩ := by
  rw [parseFactor.eq_def]
  split <;> cases hk.symm.trans ‹_›
  rw [hl]

theorem parseFactor_malformed {e : LiteralError} (hk : c.current.kind = .numeric)
    (he : c.current.literal = .error e) :
    (parseFactor c : m (Parsed c)) = (do Watch.note .call; Watch.stop (c.malformed e)) := by
  rw [parseFactor.eq_def]
  split <;> cases hk.symm.trans ‹_›
  rw [he]

theorem parseFactor_string (hk : c.current.kind = .string) :
    (parseFactor c : m (Parsed c)) = do
      Watch.note .call
      let ⟨d, hd⟩ ← c.take (by rw [hk]; nofun)
      return ⟨.literal (.string c.current.raw), d, hd⟩ := by
  rw [parseFactor.eq_def]
  split <;> cases hk.symm.trans ‹_›
  rfl

theorem parseFactor_sign {k : OpKind} (hk : c.current.kind = .operator)
    (hs : OpKind.ofSign? c.current.raw.toString = some k) :
    (parseFactor c : m (Parsed c)) = do
      Watch.note .call
      let ⟨d, hd⟩ ← c.take (by rw [hk]; nofun)
      let ⟨operand, e, he⟩ ← parseFactor d
      return ⟨.unary k operand, e, Nat.lt_trans he hd⟩ := by
  rw [parseFactor.eq_def]
  split <;> cases hk.symm.trans ‹_›
  rw [hs]

theorem parseFactor_opening (ho : c.current.isOpening '(') :
    (parseFactor c : m (Parsed c)) = (do
      Watch.note .call
      parseDelimited .round "group" c (by rw [kind_of_isOpening ho]; nofun)) := by
  rw [parseFactor.eq_def]
  split <;> cases (kind_of_isOpening ho).symm.trans ‹_›
  rw [if_pos ho]

theorem parseFactor_identifier (hk : c.current.kind = .identifier) :
    (parseFactor c : m (Parsed c)) = (do
      Watch.note .call
      parseName c (by rw [hk]; nofun)) := by
  rw [parseFactor.eq_def]
  split <;> cases hk.symm.trans ‹_›
  rfl

theorem parseFactor_keyword (hk : c.current.kind = .keyword) :
    (parseFactor c : m (Parsed c)) = (do
      Watch.note .call
      parseKeyword c (by rw [hk]; nofun)) := by
  rw [parseFactor.eq_def]
  split <;> cases hk.symm.trans ‹_›
  rfl

theorem parseFactor_blank (hb : c.current.isBlank) :
    (parseFactor c : m (Parsed c)) = do
      Watch.note .call
      let ⟨d, hd⟩ ← c.take (kind_ne_of_isBlank hb)
      let ⟨e, f, hf⟩ ← parseTier (some .logical) d
      return ⟨e, f, Nat.lt_trans hf hd⟩ := by
  rw [parseFactor.eq_def]
  rcases kind_of_isBlank hb with hk | hk
  · split <;> cases hk.symm.trans ‹_›
    rfl
  · split <;> cases hk.symm.trans ‹_›
    rfl

inductive Unfit (t : Token) : Prop where
  | operator : t.kind = .operator → OpKind.ofSign? t.raw.toString = none → Unfit t
  | punctuation : t.kind = .punctuation → ¬ t.isOpening '(' → Unfit t
  | eof : t.kind = .eof → Unfit t
  | other {code : Int} : t.kind = .other code → Unfit t

theorem parseFactor_unfit (h : Unfit c.current) :
    (parseFactor c : m (Parsed c)) =
      (do Watch.note .call; Watch.stop (c.fail .factor "factor" "an operand")) := by
  rw [parseFactor.eq_def]
  cases h with
  | operator hk hs =>
    split <;> cases hk.symm.trans ‹_›
    rw [hs]
  | punctuation hk ho =>
    split <;> cases hk.symm.trans ‹_›
    rw [if_neg ho]
  | eof hk =>
    split <;> cases hk.symm.trans ‹_›
    rfl
  | other hk =>
    split <;> cases hk.symm.trans ‹_›
    rfl

end Equations

def Yields : Part → Cursor → Expr → Cursor → Prop
  | .factor, c, e, d => ∃ h, parseFactor c = .ok ⟨e, d, h⟩
  | .tier t, c, e, d => ∃ h, parseTier (some t) c = .ok ⟨e, d, h⟩
  | .chain t left, c, e, d => ∃ h, parseChain t left c = .ok ⟨e, d, h⟩
  | .delimited b, c, e, d => ∀ production hc, ∃ h, parseDelimited b production c hc = .ok ⟨e, d, h⟩

theorem Yields.parseTier {t : Option Tier} {c d : Cursor} {e : Expr}
    (h : Yields (.ofTier t) c e d) : ∃ hd, parseTier t c = .ok ⟨e, d, hd⟩ := by
  cases t with
  | none =>
    rw [parseTier_none, note_bind]
    exact h
  | some t => exact h

theorem not_constant {word : String} (h : word = "print" ∨ word = "if") :
    ¬ (word = "true" ∨ word = "false") := by
  rcases h with rfl | rfl <;> decide

theorem parseChain_of_stops {t : Tier} {c : Cursor} (hs : t.Stops c.current.toLexeme)
    (left : Expr) : parseChain t left c = .ok ⟨left, c, Nat.le_refl _⟩ := by
  rw [parseChain.eq_def, note_bind]
  by_cases hk : c.current.kind = .operator
  · rw [dif_pos hk]
    have hs := hs hk
    generalize OpKind.ofBinary? c.current.raw.toString = found at hs ⊢
    cases found with
    | none => exact if_neg hs
    | some k => exact if_neg hs
  · rw [dif_neg hk]
    rfl

theorem Reads.yields {p : Part} {c d : Cursor} {e : Expr} (h : Reads p c e d) : Yields p c e d := by
  induction h with
  | tier _ _ ihl ihc =>
    obtain ⟨_, hl⟩ := ihl.parseTier
    obtain ⟨_, hc⟩ := ihc
    rw [Yields, parseTier.eq_def, note_bind]
    exact ⟨_, bind_eq_ok.2 ⟨_, hl, bind_eq_ok.2 ⟨_, hc, rfl⟩⟩⟩
  | stop hs => exact ⟨_, parseChain_of_stops hs _⟩
  | more hk hb ht hs _ _ ihr iha =>
    obtain ⟨_, hs⟩ := hs.take
    obtain ⟨_, hr⟩ := ihr.parseTier
    obtain ⟨_, ha⟩ := iha
    rw [Yields, parseChain.eq_def, note_bind, dif_pos hk, hb]
    refine ⟨by omega, (if_pos ht).trans ?_⟩
    exact bind_eq_ok.2 ⟨_, hs, bind_eq_ok.2 ⟨_, hr, bind_eq_ok.2 ⟨_, ha, rfl⟩⟩⟩
  | numeral hk hl hs =>
    obtain ⟨_, hs⟩ := hs.take
    rw [Yields, parseFactor_numeric hk hl, note_bind]
    exact ⟨_, bind_eq_ok.2 ⟨_, hs, rfl⟩⟩
  | string hk hs =>
    obtain ⟨_, hs⟩ := hs.take
    rw [Yields, parseFactor_string hk, note_bind]
    exact ⟨_, bind_eq_ok.2 ⟨_, hs, rfl⟩⟩
  | @constant c d b hk hw hs =>
    obtain ⟨hd, hs⟩ := hs.take
    refine ⟨hd, ?_⟩
    rw [parseFactor_keyword hk, note_bind, parseKeyword.eq_def, note_bind]
    dsimp only
    rw [hw]
    cases b with
    | true => exact bind_eq_ok.2 ⟨_, hs, rfl⟩
    | false => exact bind_eq_ok.2 ⟨_, hs, rfl⟩
  | sign hk hb hs _ ih =>
    obtain ⟨_, hs⟩ := hs.take
    obtain ⟨_, ho⟩ := ih
    rw [Yields, parseFactor_sign hk hb, note_bind]
    exact ⟨_, bind_eq_ok.2 ⟨_, hs, bind_eq_ok.2 ⟨_, ho, rfl⟩⟩⟩
  | group ho _ ih =>
    rw [Yields, parseFactor_opening ho, note_bind]
    exact ih _ _
  | name hk hs hn he =>
    obtain ⟨hd, hs⟩ := hs.take
    refine ⟨hd, ?_⟩
    rw [parseFactor_identifier hk, note_bind, parseName.eq_def, note_bind]
    refine bind_eq_ok.2 ⟨_, hs, ?_⟩
    have hopening (a : Char) : ¬ _ := fun ho => not_endsOperand_of_isOpening (a := a) ho he
    exact (dif_neg hn).trans ((dif_neg (hopening '(')).trans
      ((dif_neg (hopening '[')).trans (if_pos he)))
  | assignment hk hs ho hs' _ ih =>
    obtain ⟨_, hs⟩ := hs.take
    obtain ⟨_, hs'⟩ := hs'.take
    obtain ⟨_, hv⟩ := ih
    refine ⟨by omega, ?_⟩
    rw [parseFactor_identifier hk, note_bind, parseName.eq_def, note_bind]
    refine bind_eq_ok.2 ⟨_, hs, (dif_pos ho).trans ?_⟩
    exact bind_eq_ok.2 ⟨_, hs', bind_eq_ok.2 ⟨_, hv, rfl⟩⟩
  | call hk hs ho _ ih =>
    obtain ⟨_, hs⟩ := hs.take
    obtain ⟨_, ha⟩ := ih "call" (by rw [kind_of_isOpening ho]; nofun)
    refine ⟨by omega, ?_⟩
    rw [parseFactor_identifier hk, note_bind, parseName.eq_def, note_bind]
    refine bind_eq_ok.2 ⟨_, hs, (dif_neg (not_isOperator_of_isOpening ho _)).trans ?_⟩
    exact (dif_pos ho).trans (bind_eq_ok.2 ⟨_, ha, rfl⟩)
  | index hk hs ho _ ih =>
    obtain ⟨_, hs⟩ := hs.take
    obtain ⟨_, ha⟩ := ih "index" (by rw [kind_of_isOpening ho]; nofun)
    have hround : ¬ _ := fun ho' => absurd (isOpening_unique ho ho') (by decide : '[' ≠ '(')
    refine ⟨by omega, ?_⟩
    rw [parseFactor_identifier hk, note_bind, parseName.eq_def, note_bind]
    refine bind_eq_ok.2 ⟨_, hs, (dif_neg (not_isOperator_of_isOpening ho _)).trans ?_⟩
    exact (dif_neg hround).trans ((dif_pos ho).trans (bind_eq_ok.2 ⟨_, ha, rfl⟩))
  | command hk hw hor hs ho _ he ih =>
    obtain ⟨_, hs⟩ := hs.take
    obtain ⟨_, ha⟩ := ih "keyword call" (by rw [kind_of_isOpening ho]; nofun)
    refine ⟨by omega, ?_⟩
    rw [parseFactor_keyword hk, note_bind, parseKeyword.eq_def, note_bind]
    subst hw
    refine (if_neg (not_constant hor)).trans ((if_pos hor).trans ?_)
    refine bind_eq_ok.2 ⟨_, hs, (dif_pos ho).trans (bind_eq_ok.2 ⟨_, ha, ?_⟩)⟩
    exact if_pos he
  | block hk hw hor hs ho _ hb _ ih ih' =>
    obtain ⟨_, hs⟩ := hs.take
    obtain ⟨_, ha⟩ := ih "keyword call" (by rw [kind_of_isOpening ho]; nofun)
    obtain ⟨_, hb'⟩ := ih' "block" (by rw [kind_of_isOpening hb]; nofun)
    refine ⟨by omega, ?_⟩
    rw [parseFactor_keyword hk, note_bind, parseKeyword.eq_def, note_bind]
    subst hw
    refine (if_neg (not_constant hor)).trans ((if_pos hor).trans ?_)
    refine bind_eq_ok.2 ⟨_, hs, (dif_pos ho).trans (bind_eq_ok.2 ⟨_, ha, ?_⟩)⟩
    refine (if_neg (not_endsOperand_of_isOpening hb)).trans ((dif_pos hb).trans ?_)
    exact bind_eq_ok.2 ⟨_, hb', rfl⟩
  | blank hb hs _ ih =>
    obtain ⟨_, hs⟩ := hs.take
    obtain ⟨_, he⟩ := ih
    rw [Yields, parseFactor_blank hb, note_bind]
    exact ⟨_, bind_eq_ok.2 ⟨_, hs, bind_eq_ok.2 ⟨_, he, rfl⟩⟩⟩
  | delimited hs hskip _ hskip' hc hs' ih =>
    intro production hk
    obtain ⟨_, hs⟩ := hs.take
    obtain ⟨_, hskip⟩ := hskip.skipBlank
    obtain ⟨_, he⟩ := ih
    obtain ⟨_, hskip'⟩ := hskip'.skipBlank
    obtain ⟨_, hx⟩ := hs'.expect hc (show TokenKind.punctuation ≠ .eof by nofun)
    refine ⟨by omega, ?_⟩
    rw [parseDelimited.eq_def, note_bind]
    refine bind_eq_ok.2 ⟨_, hs, bind_eq_ok.2 ⟨_, hskip, bind_eq_ok.2 ⟨_, he, ?_⟩⟩⟩
    refine bind_eq_ok.2 ⟨_, hskip', ?_⟩
    dsimp only
    rw [note_bind, if_neg (fun hm => hm.2 hc)]
    exact bind_eq_ok.2 ⟨_, hx, rfl⟩

inductive ReadsAll : Cursor → List Expr → Cursor → Prop where
  | done {c d : Cursor} : c.Skips d → d.current.kind = .eof → ReadsAll c [] d
  | cons {c d f g : Cursor} {e : Expr} {es : List Expr} :
    c.Skips d → d.current.kind ≠ .eof → Reads (.tier .logical) d e f →
    endsStatement f.current.toLexeme → ReadsAll f es g → ReadsAll c (e :: es) g

theorem ReadsAll.parseStatements {c d : Cursor} {es : List Expr} (h : c.ReadsAll es d) :
    parseStatements c = .ok (es, d.lexer) := by
  induction h with
  | done hskip hk =>
    obtain ⟨_, hs⟩ := hskip.skipBlank
    rw [parseStatements.eq_def, note_bind]
    exact bind_eq_ok.2 ⟨_, hs, if_pos hk⟩
  | cons hskip hk he hend _ ih =>
    obtain ⟨_, hs⟩ := hskip.skipBlank
    obtain ⟨_, he⟩ := he.yields
    rw [parseStatements.eq_def, note_bind]
    refine bind_eq_ok.2 ⟨_, hs, (if_neg hk).trans (bind_eq_ok.2 ⟨_, he, ?_⟩)⟩
    exact (if_pos hend).trans (bind_eq_ok.2 ⟨_, ih, rfl⟩)

def First (source : List Char) (c : Cursor) : Prop :=
  c.lexer.peeked = none ∧ Scanner.next { rest := source } = (.ok c.current, c.lexer.scanner)

theorem ofLexer_eq_ok {source : List Char} {c : Cursor} :
    ofLexer (.ofSource source) = .ok c ↔ First source c := by
  obtain ⟨t, s, peeked⟩ := c
  simp only [ofLexer, Lexer.next, Lexer.ofSource, First]
  obtain ⟨r, s'⟩ := Scanner.next { rest := source }
  cases r with
  | error e =>
    constructor
    · intro h
      cases h
    · intro h
      cases h.2
  | ok t' =>
    constructor
    · intro h
      cases h
      exact ⟨rfl, rfl⟩
    · intro h
      obtain ⟨hp, hn⟩ := h
      cases hp
      cases hn
      rfl

end Cursor

end Reckon
