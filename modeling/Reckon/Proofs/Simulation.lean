import Reckon.Proofs.Outcomes
import Reckon.Proofs.Words

namespace Reckon

/-- Two computations both yield values that are related, or both fail with failures that are. -/
inductive Alike {ε δ α β : Type} (V : α → β → Prop) (F : ε → δ → Prop) :
    Except ε α → Except δ β → Prop where
  | ok {a : α} {b : β} : V a b → Alike V F (.ok a) (.ok b)
  | error {e : ε} {d : δ} : F e d → Alike V F (.error e) (.error d)

namespace Alike

variable {ε δ α β α' β' : Type} {V : α → β → Prop} {W : α' → β' → Prop} {F : ε → δ → Prop}
  {x : Except ε α} {y : Except δ β}

theorem exists_ok {a : α} (h : Alike V F x y) (hx : x = .ok a) : ∃ b, y = .ok b ∧ V a b := by
  cases h with
  | ok hab =>
    cases hx
    exact ⟨_, rfl, hab⟩
  | error => cases hx

theorem exists_error {e : ε} (h : Alike V F x y) (hx : x = .error e) :
    ∃ d, y = .error d ∧ F e d := by
  cases h with
  | ok => cases hx
  | error hed =>
    cases hx
    exact ⟨_, rfl, hed⟩

theorem bind {f : α → Except ε α'} {g : β → Except δ β'} (h : Alike V F x y)
    (hfg : ∀ a b, V a b → Alike W F (f a) (g b)) : Alike W F (x >>= f) (y >>= g) := by
  cases h with
  | ok hab => exact hfg _ _ hab
  | error he => exact .error he

theorem imp {V' : α → β → Prop} (h : Alike V F x y) (hV : ∀ a b, V a b → V' a b) :
    Alike V' F x y := by
  cases h with
  | ok hab => exact .ok (hV _ _ hab)
  | error he => exact .error he

end Alike

theorem dite_dite {α β : Type} {E : α → β → Prop} {p q : Prop} [Decidable p] [Decidable q]
    (hpq : p ↔ q) {f : p → α} {f' : ¬ p → α} {g : q → β} {g' : ¬ q → β}
    (hpos : ∀ hp hq, E (f hp) (g hq)) (hneg : ∀ hp hq, E (f' hp) (g' hq)) :
    E (if hp : p then f hp else f' hp) (if hq : q then g hq else g' hq) := by
  by_cases hp : p
  · rw [dif_pos hp, dif_pos (hpq.1 hp)]
    exact hpos _ _
  · rw [dif_neg hp, dif_neg (hp ∘ hpq.2)]
    exact hneg _ _

theorem ite_ite {α β : Type} {E : α → β → Prop} {p q : Prop} [Decidable p] [Decidable q]
    (hpq : p ↔ q) {x x' : α} {y y' : β} (hpos : E x y) (hneg : E x' y') :
    E (if p then x else x') (if q then y else y') :=
  dite_dite hpq (fun _ _ => hpos) (fun _ _ => hneg)

namespace Cursor

structure Twins (c d : Cursor) (f g : ParseFailure) : Prop where
  fault : g.error.fault = f.error.fault
  grammar : f.error.fault ≠ .lexical
  left : Blames f c
  right : Blames g d
  same : c = d → f = g

theorem twins_fail (c d : Cursor) {fault : ParseFault} (h : fault ≠ .lexical)
    (production expected : String) :
    Twins c d (c.fail fault production expected) (d.fail fault production expected) where
  fault := rfl
  grammar := h
  left := blames_fail _ _ _ _
  right := blames_fail _ _ _ _
  same hcd := by rw [hcd]

theorem twins_unexpected (c d : Cursor) (want : Lexeme) :
    Twins c d (c.unexpected want) (d.unexpected want) where
  fault := rfl
  grammar := ParseFault.noConfusion
  left := ⟨rfl, rfl⟩
  right := ⟨rfl, rfl⟩
  same hcd := by rw [hcd]

theorem twins_malformed {c d : Cursor} {e e' : LiteralError} (h : c.current.literal = .error e)
    (h' : d.current.literal = .error e') : Twins c d (c.malformed e) (d.malformed e') where
  fault := rfl
  grammar := ParseFault.noConfusion
  left := ⟨rfl, rfl⟩
  right := ⟨rfl, rfl⟩
  same hcd := by
    subst hcd
    cases h.symm.trans h'
    rfl

theorem exists_literal_error {t u : Token} {e : LiteralError} (h : t.literal = .error e)
    (hl : u.toLexeme = t.toLexeme) : ∃ e', u.literal = .error e' := by
  cases hu : u.literal with
  | error e' => exact ⟨e', rfl⟩
  | ok v =>
    have ht : t.literal = .ok v := Token.literal_eq hu (congrArg Lexeme.kind hl.symm)
      (congrArg Lexeme.raw hl.symm) (congrArg Lexeme.hint hl.symm)
    cases h.symm.trans ht

/-- Cursors that are related by `R` show the same lexeme, and computations at them, perhaps in two
monads, are related by `E`, which goes through sequences. -/
structure Simulates {m n : Type → Type} [Monad m] [Monad n] [Watch m] [Watch n]
    (R : Cursor → Cursor → Prop)
    (E : ∀ {α β : Type}, (α → β → Prop) → m α → n β → Prop) : Prop where
  pure {α β : Type} {V : α → β → Prop} {a : α} {b : β} : V a b → E V (pure a) (pure b)
  bind {α β α' β' : Type} {V : α → β → Prop} {W : α' → β' → Prop} {x : m α} {y : n β}
    {f : α → m α'} {g : β → n β'} : E V x y → (∀ a b, V a b → E W (f a) (g b)) →
    E W (x >>= f) (y >>= g)
  note (event event' : Event) : E (fun _ _ => True) (Watch.note event) (Watch.note event')
  lexeme {c d : Cursor} : R c d → d.current.toLexeme = c.current.toLexeme
  take {c d : Cursor} : R c d → ∀ hc hd, E (fun a b => R a.1 b.1) (c.take hc) (d.take hd)
  fault {α β : Type} {V : α → β → Prop} {c d : Cursor} {f g : ParseFailure} :
    R c d → Twins c d f g → E V (Watch.stop f) (Watch.stop g)

namespace Simulates

variable {m n : Type → Type} [Monad m] [Monad n] [Watch m] [Watch n] {R : Cursor → Cursor → Prop}
  {E : ∀ {α β : Type}, (α → β → Prop) → m α → n β → Prop} {c d : Cursor}

theorem note_bind (h : Simulates R E) {α β : Type} {V : α → β → Prop} {x : m α} {y : n β}
    {event event' : Event} (hxy : E V x y) :
    E V (do Watch.note event; x) (do Watch.note event'; y) :=
  h.bind (h.note event event') fun _ _ _ => hxy

theorem expect (h : Simulates R E) (hr : R c d) {want : Lexeme} (hw : want.kind ≠ .eof) :
    E (fun a b => R a.1 b.1) (c.expect want hw) (d.expect want hw) := by
  unfold Cursor.expect
  apply dite_dite (E := E _) (by rw [h.lexeme hr])
  · intro _ _
    exact h.take hr _ _
  · intro _ _
    exact h.fault hr (twins_unexpected c d want)

theorem skipBlank (h : Simulates R E) (hr : R c d) :
    E (fun a b => R a.1 b.1) c.skipBlank d.skipBlank := by
  induction c using skipBlank.induct generalizing d with
  | case1 c hb ih =>
    have hb' : d.current.isBlank := by rwa [h.lexeme hr]
    rw [skipBlank.eq_def c, skipBlank.eq_def d, dif_pos hb, dif_pos hb']
    apply h.bind (h.take hr _ _)
    intro a b hab
    apply h.bind (ih a.1 a.2 hab)
    intro a' b' hab'
    exact h.pure hab'
  | case2 c hb =>
    have hb' : ¬ d.current.isBlank := by rwa [h.lexeme hr]
    rw [skipBlank.eq_def c, skipBlank.eq_def d, dif_neg hb, dif_neg hb']
    exact h.pure hr

abbrev Agree (R : Cursor → Cursor → Prop)
    (E : ∀ {α β : Type}, (α → β → Prop) → m α → n β → Prop) (x : m (Parsed c)) (y : n (Parsed d)) :
    Prop :=
  E (fun a b => a.expr = b.expr ∧ R a.after b.after) x y

def Below (R : Cursor → Cursor → Prop)
    (E : ∀ {α β : Type}, (α → β → Prop) → m α → n β → Prop) (k : Nat) : Prop :=
  ∀ (t : Option Tier) (c d : Cursor), c.size < k → R c d →
    Agree R E (parseTier t c) (parseTier t d)

theorem Below.mono {k l : Nat} (h : Below R E l) (hk : k ≤ l) : Below R E k :=
  fun t c d hc => h t c d (Nat.lt_of_lt_of_le hc hk)

theorem parseDelimited (h : Simulates R E) (hr : R c d) (ih : Below R E c.size)
    (b : Bracket) (production : String) (hc : c.current.kind ≠ .eof) (hd : d.current.kind ≠ .eof) :
    Agree R E (parseDelimited b production c hc) (parseDelimited b production d hd) := by
  rw [parseDelimited.eq_def b production c, parseDelimited.eq_def b production d]
  have hdepth : d.current.depth = c.current.depth := congrArg Lexeme.depth (h.lexeme hr)
  rw [hdepth]
  apply h.note_bind
  apply h.bind (h.take hr hc hd)
  rintro ⟨a, ha⟩ ⟨a', ha'⟩ (haa : R a a')
  apply h.bind (h.skipBlank haa)
  rintro ⟨e, he⟩ ⟨e', he'⟩ (hee : R e e')
  apply h.bind (ih _ e e' (Nat.lt_of_le_of_lt he ha) hee)
  rintro ⟨x, f, hf⟩ ⟨x', f', hf'⟩ ⟨(rfl : x = x'), (hff : R f f')⟩
  apply h.bind (h.skipBlank hff)
  rintro ⟨g, hg⟩ ⟨g', hg'⟩ (hgg : R g g')
  apply h.note_bind
  apply ite_ite (E := E _) (by rw [h.lexeme hgg])
  · exact h.fault hgg (twins_fail g g' (by decide) _ _)
  · apply h.bind (h.expect hgg _)
    rintro ⟨i, hi⟩ ⟨i', hi'⟩ (hii : R i i')
    exact h.pure ⟨rfl, hii⟩

theorem parseName (h : Simulates R E) (hr : R c d) (ih : Below R E c.size)
    (hc : c.current.kind ≠ .eof) (hd : d.current.kind ≠ .eof) :
    Agree R E (parseName c hc) (parseName d hd) := by
  rw [parseName.eq_def c, parseName.eq_def d]
  have hraw : d.current.raw = c.current.raw := congrArg Lexeme.raw (h.lexeme hr)
  rw [hraw]
  apply h.note_bind
  apply h.bind (h.take hr hc hd)
  rintro ⟨a, ha⟩ ⟨a', ha'⟩ (haa : R a a')
  have hl : a'.current.toLexeme = a.current.toLexeme := h.lexeme haa
  have ih' : Below R E a.size := ih.mono (Nat.le_of_lt ha)
  apply dite_dite (E := E _) (by rw [hl])
  · intro _ _
    apply h.bind (h.take haa _ _)
    rintro ⟨e, he⟩ ⟨e', he'⟩ (hee : R e e')
    apply h.bind (ih' _ e e' he hee)
    rintro ⟨x, f, hf⟩ ⟨x', f', hf'⟩ ⟨(rfl : x = x'), (hff : R f f')⟩
    exact h.pure ⟨rfl, hff⟩
  intro _ _
  apply dite_dite (E := E _) (by rw [hl])
  · intro _ _
    apply h.bind (h.parseDelimited haa ih' _ _ _ _)
    rintro ⟨x, f, hf⟩ ⟨x', f', hf'⟩ ⟨(rfl : x = x'), (hff : R f f')⟩
    exact h.pure ⟨rfl, hff⟩
  intro _ _
  apply dite_dite (E := E _) (by rw [hl])
  · intro _ _
    apply h.bind (h.parseDelimited haa ih' _ _ _ _)
    rintro ⟨x, f, hf⟩ ⟨x', f', hf'⟩ ⟨(rfl : x = x'), (hff : R f f')⟩
    exact h.pure ⟨rfl, hff⟩
  intro _ _
  apply ite_ite (E := E _) (by rw [hl])
  · exact h.pure ⟨rfl, haa⟩
  · exact h.fault haa (twins_fail a a' (by decide) _ _)

theorem parseKeyword (h : Simulates R E) (hr : R c d) (ih : Below R E c.size)
    (hc : c.current.kind ≠ .eof) (hd : d.current.kind ≠ .eof) :
    Agree R E (parseKeyword c hc) (parseKeyword d hd) := by
  rw [parseKeyword.eq_def c, parseKeyword.eq_def d]
  have hraw : d.current.raw = c.current.raw := congrArg Lexeme.raw (h.lexeme hr)
  rw [hraw]
  apply h.note_bind
  apply ite_ite (E := E _) Iff.rfl
  · apply h.bind (h.take hr hc hd)
    rintro ⟨a, ha⟩ ⟨a', ha'⟩ (haa : R a a')
    exact h.pure ⟨rfl, haa⟩
  apply ite_ite (E := E _) Iff.rfl
  · apply h.bind (h.take hr hc hd)
    rintro ⟨a, ha⟩ ⟨a', ha'⟩ (haa : R a a')
    have ih' : Below R E a.size := ih.mono (Nat.le_of_lt ha)
    apply dite_dite (E := E _) (by rw [h.lexeme haa])
    · intro _ _
      apply h.bind (h.parseDelimited haa ih' _ _ _ _)
      rintro ⟨x, e, he⟩ ⟨x', e', he'⟩ ⟨(rfl : x = x'), (hee : R e e')⟩
      have hl : e'.current.toLexeme = e.current.toLexeme := h.lexeme hee
      apply ite_ite (E := E _) (by rw [hl])
      · exact h.pure ⟨rfl, hee⟩
      apply dite_dite (E := E _) (by rw [hl])
      · intro _ _
        apply h.bind (h.parseDelimited hee (ih'.mono (Nat.le_of_lt he)) _ _ _ _)
        rintro ⟨y, f, hf⟩ ⟨y', f', hf'⟩ ⟨(rfl : y = y'), (hff : R f f')⟩
        exact h.pure ⟨rfl, hff⟩
      · intro _ _
        exact h.fault hee (twins_fail e e' (by decide) _ _)
    · intro _ _
      exact h.fault haa (twins_fail a a' (by decide) _ _)
  · exact h.fault hr (twins_fail c d (by decide) _ _)

theorem parseFactor_blank (h : Simulates R E) (hr : R c d) (ih : Below R E c.size)
    (hb : c.current.isBlank) : Agree R E (parseFactor c) (parseFactor d) := by
  have hb' : d.current.isBlank := by rwa [h.lexeme hr]
  rw [Cursor.parseFactor_blank hb, Cursor.parseFactor_blank hb']
  apply h.note_bind
  apply h.bind (h.take hr _ _)
  rintro ⟨a, ha⟩ ⟨a', ha'⟩ (haa : R a a')
  apply h.bind (ih _ a a' ha haa)
  rintro ⟨x, f, hf⟩ ⟨x', f', hf'⟩ ⟨(rfl : x = x'), (hff : R f f')⟩
  exact h.pure ⟨rfl, hff⟩

theorem parseFactor_unfit (h : Simulates R E) (hr : R c d) (hc : Unfit c.current)
    (hd : Unfit d.current) : Agree R E (parseFactor c) (parseFactor d) := by
  rw [Cursor.parseFactor_unfit hc, Cursor.parseFactor_unfit hd]
  apply h.note_bind
  exact h.fault hr (twins_fail c d (by decide) _ _)

theorem parseFactor (h : Simulates R E) (hr : R c d) (ih : Below R E c.size) :
    Agree R E (parseFactor c) (parseFactor d) := by
  induction hn : c.size using Nat.strongRecOn generalizing c d with
  | ind k ihn =>
  have hl := h.lexeme hr
  have hkind : d.current.kind = c.current.kind := congrArg Lexeme.kind hl
  have hraw : d.current.raw = c.current.raw := congrArg Lexeme.raw hl
  cases hk : c.current.kind with
  | numeric =>
    have hk' := hkind.trans hk
    cases hv : c.current.literal with
    | error e =>
      obtain ⟨e', hv'⟩ := exists_literal_error hv hl
      rw [parseFactor_malformed hk hv, parseFactor_malformed hk' hv']
      apply h.note_bind
      exact h.fault hr (twins_malformed hv hv')
    | ok v =>
      have hv' : d.current.literal = .ok v :=
        Token.literal_eq hv hkind hraw (congrArg Lexeme.hint hl)
      rw [parseFactor_numeric hk hv, parseFactor_numeric hk' hv']
      apply h.note_bind
      apply h.bind (h.take hr _ _)
      rintro ⟨a, ha⟩ ⟨a', ha'⟩ (haa : R a a')
      exact h.pure ⟨rfl, haa⟩
  | string =>
    rw [parseFactor_string hk, parseFactor_string (hkind.trans hk), hraw]
    apply h.note_bind
    apply h.bind (h.take hr _ _)
    rintro ⟨a, ha⟩ ⟨a', ha'⟩ (haa : R a a')
    exact h.pure ⟨rfl, haa⟩
  | operator =>
    have hk' := hkind.trans hk
    cases hs : OpKind.ofSign? c.current.raw.toString with
    | none =>
      have hs' : OpKind.ofSign? d.current.raw.toString = none := by rw [hraw, hs]
      exact h.parseFactor_unfit hr (.operator hk hs) (.operator hk' hs')
    | some k =>
      have hs' : OpKind.ofSign? d.current.raw.toString = some k := by rw [hraw, hs]
      rw [parseFactor_sign hk hs, parseFactor_sign hk' hs']
      apply h.note_bind
      apply h.bind (h.take hr _ _)
      rintro ⟨a, ha⟩ ⟨a', ha'⟩ (haa : R a a')
      apply h.bind (ihn a.size (hn ▸ ha) haa (ih.mono (Nat.le_of_lt ha)) rfl)
      rintro ⟨x, f, hf⟩ ⟨x', f', hf'⟩ ⟨(rfl : x = x'), (hff : R f f')⟩
      exact h.pure ⟨rfl, hff⟩
  | punctuation =>
    by_cases ho : c.current.isOpening '('
    · have ho' : d.current.isOpening '(' := by rwa [hl]
      rw [parseFactor_opening ho, parseFactor_opening ho']
      exact h.note_bind (h.parseDelimited hr ih _ _ _ _)
    · have ho' : ¬ d.current.isOpening '(' := by rwa [hl]
      exact h.parseFactor_unfit hr (.punctuation hk ho) (.punctuation (hkind.trans hk) ho')
  | identifier =>
    rw [parseFactor_identifier hk, parseFactor_identifier (hkind.trans hk)]
    exact h.note_bind (h.parseName hr ih _ _)
  | keyword =>
    rw [parseFactor_keyword hk, parseFactor_keyword (hkind.trans hk)]
    exact h.note_bind (h.parseKeyword hr ih _ _)
  | comment => exact h.parseFactor_blank hr ih (by simp [Lexeme.isBlank, hk])
  | eol => exact h.parseFactor_blank hr ih (by simp [Lexeme.isBlank, hk])
  | eof => exact h.parseFactor_unfit hr (.eof hk) (.eof (hkind.trans hk))
  | other code => exact h.parseFactor_unfit hr (.other hk) (.other (hkind.trans hk))

theorem parseChain (h : Simulates R E) (hr : R c d) (ih : Below R E c.size) (t : Tier)
    (left : Expr) :
    E (fun a b => a.expr = b.expr ∧ R a.after b.after) (parseChain t left c)
      (parseChain t left d) := by
  induction hn : c.size using Nat.strongRecOn generalizing c d left with
  | ind k ihn =>
  have hl := h.lexeme hr
  have hraw : d.current.raw = c.current.raw := congrArg Lexeme.raw hl
  rw [parseChain.eq_def t left c, parseChain.eq_def t left d, hraw]
  apply h.note_bind
  apply dite_dite (E := E _) (by rw [hl])
  · intro _ _
    cases OpKind.ofBinary? c.current.raw.toString with
    | none =>
      apply ite_ite (E := E _) Iff.rfl
      · exact h.fault hr (twins_fail c d (by decide) _ _)
      · exact h.pure ⟨rfl, hr⟩
    | some k =>
      apply ite_ite (E := E _) Iff.rfl
      · apply h.bind (h.take hr _ _)
        rintro ⟨a, ha⟩ ⟨a', ha'⟩ (haa : R a a')
        apply h.bind (ih _ a a' ha haa)
        rintro ⟨x, e, he⟩ ⟨x', e', he'⟩ ⟨(rfl : x = x'), (hee : R e e')⟩
        have hlt : e.size < c.size := Nat.lt_trans he ha
        apply h.bind (ihn e.size (hn ▸ hlt) hee (ih.mono (Nat.le_of_lt hlt)) _ rfl)
        rintro ⟨y, f, hf⟩ ⟨y', f', hf'⟩ ⟨(rfl : y = y'), (hff : R f f')⟩
        exact h.pure ⟨rfl, hff⟩
      · exact h.pure ⟨rfl, hr⟩
  · intro _ _
    exact h.pure ⟨rfl, hr⟩

theorem parseTier_none (h : Simulates R E) (hr : R c d) (ih : Below R E c.size) :
    Agree R E (parseTier none c) (parseTier none d) := by
  rw [Cursor.parseTier_none, Cursor.parseTier_none]
  exact h.note_bind (h.parseFactor hr ih)

theorem parseTier_some (h : Simulates R E) (ih : Below R E c.size) {t : Tier}
    (hleft : Agree R E (parseTier t.tighter c) (parseTier t.tighter d)) :
    Agree R E (parseTier (some t) c) (parseTier (some t) d) := by
  rw [parseTier.eq_def (some t) c, parseTier.eq_def (some t) d]
  apply h.note_bind
  apply h.bind hleft
  rintro ⟨x, e, he⟩ ⟨x', e', he'⟩ ⟨(rfl : x = x'), (hee : R e e')⟩
  apply h.bind (h.parseChain hee (ih.mono (Nat.le_of_lt he)) t x)
  rintro ⟨y, f, hf⟩ ⟨y', f', hf'⟩ ⟨(rfl : y = y'), (hff : R f f')⟩
  exact h.pure ⟨rfl, hff⟩

theorem below (h : Simulates R E) (k : Nat) : Below R E k := by
  induction k with
  | zero => exact fun _ _ _ hc => absurd hc (Nat.not_lt_zero _)
  | succ k ihk =>
    intro t c d hc hr
    have ih : Below R E c.size := ihk.mono (Nat.le_of_lt_succ hc)
    have term := h.parseTier_some (t := .term) ih (h.parseTier_none hr ih)
    have expression := h.parseTier_some (t := .expression) ih term
    match t with
    | none => exact h.parseTier_none hr ih
    | some .term => exact term
    | some .expression => exact expression
    | some .logical => exact h.parseTier_some (t := .logical) ih expression

theorem parseTier (h : Simulates R E) (hr : R c d) (t : Option Tier) :
    Agree R E (parseTier t c) (parseTier t d) :=
  h.below _ t c d (Nat.lt_succ_self _) hr

/-- Two parses build the same trees and leave the lexers of related cursors. -/
theorem parseStatements (h : Simulates R E) (hr : R c d) :
    E (fun a b => a.1 = b.1 ∧ ∃ c d, R c d ∧ a.2 = c.lexer ∧ b.2 = d.lexer)
      (parseStatements c) (parseStatements d) := by
  induction c using parseStatements.induct generalizing d with
  | case1 c ih =>
    rw [parseStatements.eq_def c, parseStatements.eq_def d]
    apply h.note_bind
    apply h.bind (h.skipBlank hr)
    rintro ⟨a, ha⟩ ⟨a', ha'⟩ (haa : R a a')
    apply ite_ite (E := E _) (by rw [h.lexeme haa])
    · exact h.pure ⟨rfl, a, a', haa, rfl, rfl⟩
    apply h.bind (h.parseTier haa _)
    rintro ⟨x, f, hf⟩ ⟨x', f', hf'⟩ ⟨(rfl : x = x'), (hff : R f f')⟩
    apply ite_ite (E := E _) (by rw [h.lexeme hff])
    · apply h.bind (ih a ha f hf hff)
      rintro ⟨es, l⟩ ⟨es', l'⟩ ⟨(rfl : es = es'), hl⟩
      exact h.pure ⟨rfl, hl⟩
    · exact h.fault hff (twins_fail f f' (by decide) _ _)

end Simulates

/-- Related cursors show the same lexeme; they take tokens alike, and a fault that is found at both
relates the failures. -/
structure Mirrors (R : Cursor → Cursor → Prop) (F : ParseFailure → ParseFailure → Prop) :
    Prop where
  lexeme {c d : Cursor} : R c d → d.current.toLexeme = c.current.toLexeme
  next {c d : Cursor} : R c d → c.current.kind ≠ .eof →
    (∃ c' d', c.Step c' ∧ d.Step d' ∧ R c' d') ∨
    ∃ e l e' l', c.lexer.next = (.error e, l) ∧ d.lexer.next = (.error e', l') ∧
      F (lexicalFailure c.current e l) (lexicalFailure d.current e' l')
  fault {c d : Cursor} {f g : ParseFailure} : R c d → Twins c d f g → F f g

section Mirrors

variable {R : Cursor → Cursor → Prop} {F : ParseFailure → ParseFailure → Prop} {c d : Cursor}

theorem Mirrors.simulates (h : Mirrors R F) :
    Simulates (m := Except ParseFailure) (n := Except ParseFailure) R (fun V => Alike V F) where
  pure hab := .ok hab
  bind hxy hfg := hxy.bind hfg
  note _ _ := .ok trivial
  lexeme := h.lexeme
  take hr hc hd := by
    rcases h.next hr hc with ⟨c', d', hs, hs', hr'⟩ | ⟨e, l, e', l', hn, hn', hf⟩
    · obtain ⟨_, ht⟩ := hs.take
      obtain ⟨_, ht'⟩ := hs'.take
      rw [ht, ht']
      exact .ok hr'
    · rw [take_of_error hc hn, take_of_error hd hn']
      exact .error hf
  fault hr htwins := .error (h.fault hr htwins)

theorem Mirrors.parseStatements (h : Mirrors R F) (hr : R c d) :
    Alike (fun a b => a.1 = b.1) F (parseStatements c) (parseStatements d) :=
  (h.simulates.parseStatements hr).imp fun _ _ => And.left

end Mirrors

end Cursor

end Reckon
