import Reckon.Proofs.Parsing

namespace Reckon

/-- A computation returns a value with `V`, or fails with a failure with `F`. -/
inductive Meets {ε α : Type} (V : α → Prop) (F : ε → Prop) : Except ε α → Prop where
  | ok {a : α} : V a → Meets V F (.ok a)
  | error {e : ε} : F e → Meets V F (.error e)

namespace Meets

variable {ε α β : Type} {V V' : α → Prop} {W : β → Prop} {F G : ε → Prop} {x y : Except ε α}

theorem of_ok {a : α} (h : Meets V F x) (hx : x = .ok a) : V a := by
  subst hx
  cases h with
  | ok ha => exact ha

theorem of_error {e : ε} (h : Meets V F x) (hx : x = .error e) : F e := by
  subst hx
  cases h with
  | error he => exact he

theorem imp (h : Meets V G x) (hV : ∀ a, V a → V' a) (hG : ∀ e, G e → F e) : Meets V' F x := by
  cases h with
  | ok ha => exact .ok (hV _ ha)
  | error he => exact .error (hG _ he)

theorem bind {f : α → Except ε β} (h : Meets V G x) (hG : ∀ e, G e → F e)
    (hf : ∀ a, V a → Meets W F (f a)) : Meets W F (x >>= f) := by
  cases h with
  | ok ha => exact hf _ ha
  | error he => exact .error (hG _ he)

theorem dite {p : Prop} [Decidable p] {f : p → Except ε α} {g : ¬ p → Except ε α}
    (hpos : ∀ h, Meets V F (f h)) (hneg : ∀ h, Meets V F (g h)) :
    Meets V F (if h : p then f h else g h) :=
  of_dite hpos hneg

theorem ite {p : Prop} [Decidable p] (hpos : p → Meets V F x) (hneg : ¬ p → Meets V F y) :
    Meets V F (if p then x else y) :=
  dite hpos hneg

end Meets

namespace Cursor

inductive Refused (t : Token) : Prop where
  | numeral {e : LiteralError} : t.kind = .numeric → t.literal = .error e → Refused t
  | keyword : t.kind = .keyword → ¬ (t.raw.toString = "true" ∨ t.raw.toString = "false") →
    ¬ (t.raw.toString = "print" ∨ t.raw.toString = "if") → Refused t
  | unfit : Unfit t → Refused t

/-- A part of the parser that starts at a cursor fails at another. -/
inductive Fails : Part → Cursor → Cursor → Prop where
  | first {t : Tier} {c d : Cursor} : Fails (.ofTier t.tighter) c d → Fails (.tier t) c d
  | chain {t : Tier} {c m d : Cursor} {left : Expr} :
    Reads (.ofTier t.tighter) c left m → Fails (.chain t left) m d → Fails (.tier t) c d
  | operator {c : Cursor} {left : Expr} :
    c.current.kind = .operator → OpKind.ofBinary? c.current.raw.toString = none →
    Fails (.chain .logical left) c c
  | operand {t : Tier} {c m d : Cursor} {k : OpKind} {left : Expr} :
    c.current.kind = .operator → OpKind.ofBinary? c.current.raw.toString = some k →
    k.tier? = some t → c.Step m → Fails (.ofTier t.tighter) m d → Fails (.chain t left) c d
  | rest {t : Tier} {c m e d : Cursor} {k : OpKind} {left right : Expr} :
    c.current.kind = .operator → OpKind.ofBinary? c.current.raw.toString = some k →
    k.tier? = some t → c.Step m → Reads (.ofTier t.tighter) m right e →
    Fails (.chain t (.binary k left right)) e d → Fails (.chain t left) c d
  | refused {c : Cursor} : Refused c.current → Fails .factor c c
  | sign {c m d : Cursor} {k : OpKind} :
    c.current.kind = .operator → OpKind.ofSign? c.current.raw.toString = some k → c.Step m →
    Fails .factor m d → Fails .factor c d
  | group {c d : Cursor} :
    c.current.isOpening '(' → Fails (.delimited .round) c d → Fails .factor c d
  | name {c d : Cursor} :
    c.current.kind = .identifier → c.Step d → ¬ d.current.isOperator "=" →
    ¬ d.current.isOpening '(' → ¬ d.current.isOpening '[' → ¬ endsOperand d.current.toLexeme →
    Fails .factor c d
  | assignment {c m e d : Cursor} :
    c.current.kind = .identifier → c.Step m → m.current.isOperator "=" → m.Step e →
    Fails (.tier .logical) e d → Fails .factor c d
  | call {c m d : Cursor} :
    c.current.kind = .identifier → c.Step m → m.current.isOpening '(' →
    Fails (.delimited .round) m d → Fails .factor c d
  | index {c m d : Cursor} :
    c.current.kind = .identifier → c.Step m → m.current.isOpening '[' →
    Fails (.delimited .square) m d → Fails .factor c d
  | command {c d : Cursor} {word : String} :
    c.current.kind = .keyword → c.current.raw.toString = word → word = "print" ∨ word = "if" →
    c.Step d → ¬ d.current.isOpening '(' → Fails .factor c d
  | argument {c m d : Cursor} {word : String} :
    c.current.kind = .keyword → c.current.raw.toString = word → word = "print" ∨ word = "if" →
    c.Step m → m.current.isOpening '(' → Fails (.delimited .round) m d → Fails .factor c d
  | called {c m d : Cursor} {word : String} {arg : Expr} :
    c.current.kind = .keyword → c.current.raw.toString = word → word = "print" ∨ word = "if" →
    c.Step m → m.current.isOpening '(' → Reads (.delimited .round) m arg d →
    ¬ endsOperand d.current.toLexeme → ¬ d.current.isOpening Bracket.curly.opener →
    Fails .factor c d
  | block {c m e d : Cursor} {word : String} {arg : Expr} :
    c.current.kind = .keyword → c.current.raw.toString = word → word = "print" ∨ word = "if" →
    c.Step m → m.current.isOpening '(' → Reads (.delimited .round) m arg e →
    e.current.isOpening Bracket.curly.opener → Fails (.delimited .curly) e d → Fails .factor c d
  | blank {c m d : Cursor} :
    c.current.isBlank → c.Step m → Fails (.tier .logical) m d → Fails .factor c d
  | inside {b : Bracket} {c m a d : Cursor} :
    c.Step m → m.Skips a → Fails (.tier .logical) a d → Fails (.delimited b) c d
  | unclosed {b : Bracket} {c m a f d : Cursor} {e : Expr} :
    c.Step m → m.Skips a → Reads (.tier .logical) a e f → f.Skips d →
    d.current.toLexeme ≠ .closing b.closer c.current.depth → Fails (.delimited b) c d

inductive FailsAll : Cursor → Cursor → Prop where
  | inside {c a d : Cursor} :
    c.Skips a → a.current.kind ≠ .eof → Fails (.tier .logical) a d → FailsAll c d
  | unended {c a d : Cursor} {e : Expr} :
    c.Skips a → a.current.kind ≠ .eof → Reads (.tier .logical) a e d →
    ¬ endsStatement d.current.toLexeme → FailsAll c d
  | later {c a f d : Cursor} {e : Expr} :
    c.Skips a → a.current.kind ≠ .eof → Reads (.tier .logical) a e f →
    endsStatement f.current.toLexeme → FailsAll f d → FailsAll c d

structure Blames (failure : ParseFailure) (d : Cursor) : Prop where
  found : failure.error.found = d.current
  pos : failure.error.pos = d.current.pos

/-- A failure that is no lexical error is one of a part at some cursor. -/
def FailsAt (p : Part) (c : Cursor) (failure : ParseFailure) : Prop :=
  failure.error.fault ≠ .lexical → ∃ d, Fails p c d ∧ Blames failure d

theorem blames_fail (c : Cursor) (fault : ParseFault) (production expected : String) :
    Blames (c.fail fault production expected) c := ⟨rfl, rfl⟩

section FailsAt

variable {p q : Part} {c d : Cursor} {failure : ParseFailure}

theorem FailsAt.lexical (h : failure.error.fault = .lexical) : FailsAt p c failure :=
  fun hl => absurd h hl

theorem FailsAt.of_fails (h : Fails p c d) (hb : Blames failure d) : FailsAt p c failure :=
  fun _ => ⟨d, h, hb⟩

theorem FailsAt.fail (h : Fails p c d) (fault : ParseFault) (production expected : String) :
    FailsAt p c (d.fail fault production expected) :=
  .of_fails h (blames_fail d fault production expected)

theorem FailsAt.imp (h : FailsAt p d failure) (himp : ∀ e, Fails p d e → Fails q c e) :
    FailsAt q c failure := by
  intro hl
  obtain ⟨e, he, hb⟩ := h hl
  exact ⟨e, himp e he, hb⟩

end FailsAt

section Tokens

variable {c : Cursor}

theorem meets_take (h : c.current.kind ≠ .eof) :
    Meets (fun r => c.Step r.1) (fun failure => failure.error.fault = .lexical) (c.take h) := by
  rcases hn : c.lexer.next with ⟨e | t, l⟩
  · rw [take_of_error h hn]
    exact .error rfl
  · have hs : c.Step ⟨t, l⟩ := ⟨h, hn⟩
    obtain ⟨_, ht⟩ := hs.take
    rw [ht]
    exact .ok hs

theorem meets_skipBlank (c : Cursor) :
    Meets (fun r => c.Skips r.1) (fun failure => failure.error.fault = .lexical) c.skipBlank := by
  induction c using skipBlank.induct with
  | case1 c hb ih =>
    rw [skipBlank.eq_def, dif_pos hb]
    apply (meets_take _).bind fun _ => id
    rintro ⟨d, hd⟩ (hs : c.Step d)
    apply (ih d hd).bind fun _ => id
    rintro ⟨e, he⟩ ⟨⟨u, hu, hsteps⟩, hn⟩
    exact .ok ⟨⟨_, List.forall_mem_cons.2 ⟨hb, hu⟩, .cons hs hsteps⟩, hn⟩
  | case2 c hb =>
    rw [skipBlank.eq_def, dif_neg hb]
    exact .ok (.refl hb)

theorem meets_expect {want : Lexeme} (h : want.kind ≠ .eof) :
    Meets (fun r => c.current.toLexeme = want ∧ c.Step r.1)
      (fun failure => failure.error.fault = .lexical ∨
        c.current.toLexeme ≠ want ∧ Blames failure c) (c.expect want h) := by
  unfold expect
  apply Meets.dite
  · intro hc
    exact (meets_take _).imp (fun _ hs => ⟨hc, hs⟩) fun _ => .inl
  · intro hc
    exact .error (.inr ⟨hc, rfl, rfl⟩)

end Tokens

/-- What a parser returns is read, and it fails where a part of it does. -/
abbrev Accounted (p : Part) (c : Cursor) (x : Except ParseFailure (Parsed c)) : Prop :=
  Meets (fun r => Reads p c r.expr r.after) (FailsAt p c) x

def AccountedBelow (n : Nat) : Prop :=
  ∀ (t : Option Tier) (c : Cursor), c.size < n → Accounted (.ofTier t) c (parseTier t c)

theorem AccountedBelow.mono {m n : Nat} (h : AccountedBelow n) (hm : m ≤ n) : AccountedBelow m :=
  fun t c hc => h t c (Nat.lt_of_lt_of_le hc hm)

section Parsers

variable {c : Cursor} (ih : AccountedBelow c.size)

include ih

theorem meets_parseDelimited (b : Bracket) (production : String) (hc : c.current.kind ≠ .eof) :
    Accounted (.delimited b) c (parseDelimited b production c hc) := by
  rw [parseDelimited.eq_def, note_bind]
  apply (meets_take hc).bind fun _ => .lexical
  rintro ⟨d, hd⟩ (hs : c.Step d)
  apply (meets_skipBlank d).bind fun _ => .lexical
  rintro ⟨e, he⟩ (hskip : d.Skips e)
  apply (ih (some .logical) e (Nat.lt_of_le_of_lt he hd)).bind fun _ hf =>
    hf.imp fun _ => .inside hs hskip
  rintro ⟨expr, f, hf⟩ (hexpr : Reads (.tier .logical) e expr f)
  apply (meets_skipBlank f).bind fun _ => .lexical
  rintro ⟨g, hg⟩ (hskip' : f.Skips g)
  dsimp only
  rw [note_bind]
  apply Meets.ite
  · intro hw
    exact .error (.fail (.unclosed hs hskip hexpr hskip' hw.2) _ _ _)
  · intro _
    apply (meets_expect _).bind
    · rintro failure (hl | ⟨hw, hb⟩)
      · exact .lexical hl
      · exact .of_fails (.unclosed hs hskip hexpr hskip' hw) hb
    · rintro ⟨i, hi⟩ ⟨hclose, hs'⟩
      exact .ok (.delimited hs hskip hexpr hskip' hclose hs')

theorem meets_parseName (hk : c.current.kind = .identifier) (hc : c.current.kind ≠ .eof) :
    Accounted .factor c (parseName c hc) := by
  rw [parseName.eq_def, note_bind]
  apply (meets_take hc).bind fun _ => .lexical
  rintro ⟨d, hd⟩ (hs : c.Step d)
  have ihd : AccountedBelow d.size := ih.mono (Nat.le_of_lt hd)
  apply Meets.dite
  · intro ho
    apply (meets_take _).bind fun _ => .lexical
    rintro ⟨e, he⟩ (hs' : d.Step e)
    apply (ihd (some .logical) e he).bind fun _ hf =>
      hf.imp fun _ => .assignment hk hs ho hs'
    rintro ⟨value, f, hf⟩ (hv : Reads (.tier .logical) e value f)
    exact .ok (.assignment hk hs ho hs' hv)
  intro hassign
  apply Meets.dite
  · intro ho
    apply (meets_parseDelimited ihd _ _ _).bind fun _ hf => hf.imp fun _ => .call hk hs ho
    rintro ⟨arg, e, he⟩ (ha : Reads (.delimited .round) d arg e)
    exact .ok (.call hk hs ho ha)
  intro hround
  apply Meets.dite
  · intro ho
    apply (meets_parseDelimited ihd _ _ _).bind fun _ hf => hf.imp fun _ => .index hk hs ho
    rintro ⟨arg, e, he⟩ (ha : Reads (.delimited .square) d arg e)
    exact .ok (.index hk hs ho ha)
  intro hsquare
  apply Meets.ite
  · intro hend
    exact .ok (.name hk hs hassign hend)
  · intro hend
    exact .error (.fail (.name hk hs hassign hround hsquare hend) _ _ _)

theorem meets_parseKeyword (hk : c.current.kind = .keyword) (hc : c.current.kind ≠ .eof) :
    Accounted .factor c (parseKeyword c hc) := by
  rw [parseKeyword.eq_def, note_bind]
  apply Meets.ite
  · intro hw
    apply (meets_take hc).bind fun _ => .lexical
    rintro ⟨d, hd⟩ (hs : c.Step d)
    refine .ok (.constant hk ?_ hs)
    rcases hw with hw | hw <;> rw [hw] <;> rfl
  intro hconstant
  apply Meets.ite
  · intro hw
    apply (meets_take hc).bind fun _ => .lexical
    rintro ⟨d, hd⟩ (hs : c.Step d)
    have ihd : AccountedBelow d.size := ih.mono (Nat.le_of_lt hd)
    apply Meets.dite
    · intro ho
      apply (meets_parseDelimited ihd _ _ _).bind fun _ hf =>
        hf.imp fun _ => .argument hk rfl hw hs ho
      rintro ⟨arg, e, he⟩ (ha : Reads (.delimited .round) d arg e)
      apply Meets.ite
      · intro hend
        exact .ok (.command hk rfl hw hs ho ha hend)
      intro hend
      apply Meets.dite
      · intro hb
        apply (meets_parseDelimited (ihd.mono (Nat.le_of_lt he)) _ _ _).bind fun _ hf =>
          hf.imp fun _ => .block hk rfl hw hs ho ha hb
        rintro ⟨body, f, hf⟩ (hbody : Reads (.delimited .curly) e body f)
        exact .ok (.block hk rfl hw hs ho ha hb hbody)
      · intro hb
        exact .error (.fail (.called hk rfl hw hs ho ha hend hb) _ _ _)
    · intro ho
      exact .error (.fail (.command hk rfl hw hs ho) _ _ _)
  · intro hcommand
    exact .error (.fail (.refused (.keyword hk hconstant hcommand)) _ _ _)

theorem meets_blank (hb : c.current.isBlank) : Accounted .factor c (parseFactor c) := by
  rw [parseFactor_blank hb, note_bind]
  apply (meets_take _).bind fun _ => .lexical
  rintro ⟨d, hd⟩ (hs : c.Step d)
  apply (ih (some .logical) d hd).bind fun _ hf => hf.imp fun _ => .blank hb hs
  rintro ⟨e, f, hf⟩ (he : Reads (.tier .logical) d e f)
  exact .ok (.blank hb hs he)

omit ih in
theorem meets_unfit (h : Unfit c.current) : Accounted .factor c (parseFactor c) := by
  rw [parseFactor_unfit h, note_bind]
  exact .error (.fail (.refused (.unfit h)) _ _ _)

theorem meets_parseFactor : Accounted .factor c (parseFactor c) := by
  cases hk : c.current.kind with
  | numeric =>
    cases hl : c.current.literal with
    | error e =>
      rw [parseFactor_malformed hk hl, note_bind]
      exact .error (.of_fails (.refused (.numeral hk hl)) ⟨rfl, rfl⟩)
    | ok l =>
      rw [parseFactor_numeric hk hl, note_bind]
      apply (meets_take _).bind fun _ => .lexical
      rintro ⟨d, hd⟩ (hs : c.Step d)
      exact .ok (.numeral hk hl hs)
  | string =>
    rw [parseFactor_string hk, note_bind]
    apply (meets_take _).bind fun _ => .lexical
    rintro ⟨d, hd⟩ (hs : c.Step d)
    exact .ok (.string hk hs)
  | operator =>
    cases hsign : OpKind.ofSign? c.current.raw.toString with
    | none => exact meets_unfit (.operator hk hsign)
    | some k =>
      rw [parseFactor_sign hk hsign, note_bind]
      apply (meets_take _).bind fun _ => .lexical
      rintro ⟨d, hd⟩ (hs : c.Step d)
      have hfactor := ih none d hd
      rw [parseTier_none, note_bind] at hfactor
      apply hfactor.bind fun _ hf => hf.imp fun _ => .sign hk hsign hs
      rintro ⟨operand, e, he⟩ (ho : Reads .factor d operand e)
      exact .ok (.sign hk hsign hs ho)
  | punctuation =>
    by_cases ho : c.current.isOpening '('
    · rw [parseFactor_opening ho, note_bind]
      exact (meets_parseDelimited ih _ _ _).imp (fun _ => .group ho) fun _ hf =>
        hf.imp fun _ => .group ho
    · exact meets_unfit (.punctuation hk ho)
  | identifier =>
    rw [parseFactor_identifier hk, note_bind]
    exact meets_parseName ih hk _
  | keyword =>
    rw [parseFactor_keyword hk, note_bind]
    exact meets_parseKeyword ih hk _
  | comment => exact meets_blank ih (by simp [Lexeme.isBlank, hk])
  | eol => exact meets_blank ih (by simp [Lexeme.isBlank, hk])
  | eof => exact meets_unfit (.eof hk)
  | other code => exact meets_unfit (.other hk)

theorem meets_parseChain (t : Tier) (left : Expr) :
    Meets (fun r => Reads (.chain t left) c r.expr r.after) (FailsAt (.chain t left) c)
      (parseChain t left c) := by
  induction hn : c.size using Nat.strongRecOn generalizing c left with
  | ind n ihn =>
  rw [parseChain.eq_def, note_bind]
  apply Meets.dite
  · intro hk
    cases hb : OpKind.ofBinary? c.current.raw.toString with
    | none =>
      apply Meets.ite
      · rintro rfl
        exact .error (.fail (.operator hk hb) _ _ _)
      · intro ht
        exact .ok (.stop (.of_none hb ht))
    | some k =>
      apply Meets.ite
      · intro ht
        apply (meets_take _).bind fun _ => .lexical
        rintro ⟨d, hd⟩ (hs : c.Step d)
        apply (ih _ d hd).bind fun _ hf => hf.imp fun _ => .operand hk hb ht hs
        rintro ⟨right, e, he⟩ (hr : Reads (.ofTier t.tighter) d right e)
        have hlt : e.size < c.size := Nat.lt_trans he hd
        apply (ihn e.size (hn ▸ hlt) (ih.mono (Nat.le_of_lt hlt)) _ rfl).bind fun _ hf =>
          hf.imp fun _ => .rest hk hb ht hs hr
        rintro ⟨all, f, hf⟩ (ha : Reads (.chain t (.binary k left right)) e all f)
        exact .ok (.more hk hb ht hs hr ha)
      · intro ht
        exact .ok (.stop (.of_some hb ht))
  · intro hk
    exact .ok (.stop fun hk' => absurd hk' hk)

theorem meets_parseTier_some {t : Tier}
    (hleft : Accounted (.ofTier t.tighter) c (parseTier t.tighter c)) :
    Accounted (.tier t) c (parseTier (some t) c) := by
  rw [parseTier.eq_def, note_bind]
  apply hleft.bind fun _ hf => hf.imp fun _ => .first
  rintro ⟨left, d, hd⟩ (hl : Reads (.ofTier t.tighter) c left d)
  apply (meets_parseChain (ih.mono (Nat.le_of_lt hd)) t left).bind fun _ hf =>
    hf.imp fun _ => .chain hl
  rintro ⟨e, f, hf⟩ (hch : Reads (.chain t left) d e f)
  exact .ok (.tier hl hch)

end Parsers

theorem accountedBelow (n : Nat) : AccountedBelow n := by
  induction n with
  | zero => exact fun _ _ hc => absurd hc (Nat.not_lt_zero _)
  | succ n ihn =>
    intro t c hc
    have ih : AccountedBelow c.size := ihn.mono (Nat.le_of_lt_succ hc)
    -- The tiers hand the cursor on to each other before a token is taken.
    have factor : Accounted .factor c (parseTier none c) := by
      rw [parseTier_none, note_bind]
      exact meets_parseFactor ih
    have term := meets_parseTier_some (t := .term) ih factor
    have expression := meets_parseTier_some (t := .expression) ih term
    match t with
    | none => exact factor
    | some .term => exact term
    | some .expression => exact expression
    | some .logical => exact meets_parseTier_some (t := .logical) ih expression

theorem meets_parseTier (t : Option Tier) (c : Cursor) : Accounted (.ofTier t) c (parseTier t c) :=
  accountedBelow _ t c (Nat.lt_succ_self _)

theorem meets_parseStatements (c : Cursor) :
    Meets (fun r => ∃ d, c.ReadsAll r.1 d)
      (fun failure => failure.error.fault ≠ .lexical → ∃ d, c.FailsAll d ∧ Blames failure d)
      (parseStatements c) := by
  induction c using parseStatements.induct with
  | case1 c ih =>
    rw [parseStatements.eq_def, note_bind]
    apply (meets_skipBlank c).bind fun _ hl hl' => absurd hl hl'
    rintro ⟨d, hd⟩ (hskip : c.Skips d)
    apply Meets.ite
    · intro hk
      exact .ok ⟨d, .done hskip hk⟩
    intro hk
    apply (meets_parseTier _ d).bind
    · intro failure hf hl
      obtain ⟨e, he, hb⟩ := hf hl
      exact ⟨e, .inside hskip hk he, hb⟩
    rintro ⟨e, f, hf⟩ (he : Reads (.tier .logical) d e f)
    apply Meets.ite
    · intro hend
      apply (ih d hd f hf).bind
      · intro failure hlater hl
        obtain ⟨g, hg, hb⟩ := hlater hl
        exact ⟨g, .later hskip hk he hend hg, hb⟩
      · rintro ⟨es, l⟩ ⟨g, hg⟩
        exact .ok ⟨g, .cons hskip hk he hend hg⟩
    · intro hend
      exact .error fun _ => ⟨f, .unended hskip hk he hend, blames_fail f _ _ _⟩

theorem meets_ofLexer (source : List Char) :
    Meets (First source) (fun failure => failure.error.fault = .lexical)
      (ofLexer (.ofSource source)) := by
  cases h : ofLexer (.ofSource source) with
  | ok c => exact .ok (ofLexer_eq_ok.1 h)
  | error failure =>
    rcases hn : (Lexer.ofSource source).next with ⟨e | t, l⟩
    · rw [ofLexer_of_error hn] at h
      cases h
      exact .error rfl
    · rw [ofLexer_of_ok hn] at h
      cases h

theorem meets_ofSource (source : List Char) :
    Meets (fun r => ∃ c d, First source c ∧ c.ReadsAll r.1 d)
      (fun failure => failure.error.fault ≠ .lexical →
        ∃ c d, First source c ∧ c.FailsAll d ∧ Blames failure d)
      (Lexer.ofSource source).parseStatements := by
  apply (meets_ofLexer source).bind fun _ hl hl' => absurd hl hl'
  intro c hc
  apply (meets_parseStatements c).imp
  · rintro r ⟨d, hd⟩
    exact ⟨c, d, hc, hd⟩
  · intro failure hf hl
    obtain ⟨d, hd, hb⟩ := hf hl
    exact ⟨c, d, hc, hd, hb⟩

end Cursor

theorem Lexer.parse_of_ok {l l' : Lexer} {exprs : List Expr}
    (h : l.parseStatements = .ok (exprs, l')) : l.parse = (.ok ⟨exprs⟩, l') := by
  rw [parse, h]

theorem Lexer.parse_of_error {l : Lexer} {failure : ParseFailure}
    (h : l.parseStatements = .error failure) :
    l.parse = (.error failure.error, failure.lexer) := by
  rw [parse, h]

theorem Program.parse_of_ok {source : List Char} {exprs : List Expr} {l : Lexer}
    (h : (Lexer.ofSource source).parseStatements = .ok (exprs, l)) :
    Program.parse source = .ok ⟨exprs⟩ :=
  congrArg Prod.fst (Lexer.parse_of_ok h)

theorem Program.parse_of_error {source : List Char} {failure : ParseFailure}
    (h : (Lexer.ofSource source).parseStatements = .error failure) :
    Program.parse source = .error failure.error :=
  congrArg Prod.fst (Lexer.parse_of_error h)

theorem Program.parse_eq_ok {source : List Char} {p : Program} :
    Program.parse source = .ok p ↔ ∃ c d, Cursor.First source c ∧ c.ReadsAll p.exprs d := by
  constructor
  · intro h
    cases hs : (Lexer.ofSource source).parseStatements with
    | ok r =>
      cases (parse_of_ok hs).symm.trans h
      exact (Cursor.meets_ofSource source).of_ok hs
    | error failure => cases (parse_of_error hs).symm.trans h
  · rintro ⟨c, d, hc, hd⟩
    exact parse_of_ok (bind_eq_ok.2 ⟨c, Cursor.ofLexer_eq_ok.2 hc, hd.parseStatements⟩)

theorem Program.parse_eq_error {source : List Char} {error : ParseError}
    (h : Program.parse source = .error error) (hl : error.fault ≠ .lexical) :
    ∃ c d, Cursor.First source c ∧ c.FailsAll d ∧ error.found = d.current ∧
      error.pos = d.current.pos := by
  cases hs : (Lexer.ofSource source).parseStatements with
  | ok r => cases (parse_of_ok hs).symm.trans h
  | error failure =>
    cases (parse_of_error hs).symm.trans h
    obtain ⟨c, d, hc, hd, hb⟩ := (Cursor.meets_ofSource source).of_error hs hl
    exact ⟨c, d, hc, hd, hb.found, hb.pos⟩

end Reckon
