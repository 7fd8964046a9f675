import Reckon.Expr.Cursor
import Reckon.Proofs.Basic

namespace Reckon

theorem Text.eq_ofString {t : Text} {s : String} (h : t.toString = s)
    (hs : replacement ∉ s.toList) : t = .ofString s := by
  subst h
  rw [toString, String.toList_ofList] at hs
  rw [ofString, toString, String.toList_ofList]
  induction t with
  | nil => rfl
  | cons p t ih =>
    simp only [chars, List.map_cons, List.mem_cons, not_or] at hs ih ⊢
    cases p with
    | char c => exact congrArg _ (ih hs.2)
    | stray b => exact absurd rfl hs.1

/-- What a lexeme does to the open brackets. -/
inductive Nests : Nesting → Lexeme → Nesting → Prop where
  | opening (n : Nesting) (b : Bracket) :
    Nests n (.opening b.opener (n.get b)) (n.set b (n.get b + 1))
  | closing {n : Nesting} {b : Bracket} {depth : Nat} (h : n.get b = depth + 1) :
    Nests n (.closing b.closer depth) (n.set b depth)
  | separator (n : Nesting) {c : Char} (h : c = ',' ∨ c = ';') : Nests n (.separator c) n
  | plain (n : Nesting) {l : Lexeme} (h : l.kind ≠ .punctuation) : Nests n l n

namespace Bracket

theorem opener_of_ofOpener? {c : Char} {b : Bracket} (h : ofOpener? c = some b) : c = b.opener := by
  unfold ofOpener? at h
  split at h
  · cases h; assumption
  · split at h
    · cases h; assumption
    · split at h
      · cases h; assumption
      · cases h

theorem closer_of_ofCloser? {c : Char} {b : Bracket} (h : ofCloser? c = some b) : c = b.closer := by
  unfold ofCloser? at h
  split at h
  · cases h; assumption
  · split at h
    · cases h; assumption
    · split at h
      · cases h; assumption
      · cases h

end Bracket

def Lexeme.Is (l : Lexeme) (kind : TokenKind) (spelling : Text) : Prop :=
  l.kind = kind ∧ l.raw = spelling

theorem Lexeme.Is.toString_raw {l : Lexeme} {kind : TokenKind} {s : String}
    (h : l.Is kind (.ofString s)) : l.raw.toString = s := by
  rw [h.2, Text.toString_ofString]

theorem Lexeme.toString_raw_plain (kind : TokenKind) (s : String) :
    (plain kind s.toList).raw.toString = s := Text.toString_ofString s

theorem Bracket.opener_injective {a b : Bracket} (h : a.opener = b.opener) : a = b := by
  cases a <;> cases b <;> first | rfl | exact absurd h (by decide)

theorem Bracket.closer_injective {a b : Bracket} (h : a.closer = b.closer) : a = b := by
  cases a <;> cases b <;> first | rfl | exact absurd h (by decide)

theorem Bracket.opener_ne_closer (a b : Bracket) : a.opener ≠ b.closer := by
  cases a <;> cases b <;> decide

theorem Bracket.separator_ne (b : Bracket) {c : Char} (h : c = ',' ∨ c = ';') :
    c ≠ b.opener ∧ c ≠ b.closer := by
  rcases h with rfl | rfl <;> cases b <;> decide

namespace Nests

variable {n n' : Nesting} {l : Lexeme} {b : Bracket}

theorem spelled {a c : Char} (h : Text.ofChars [a] = .ofChars [c]) : a = c := by
  simpa using Text.ofChars_injective h

theorem of_opener (h : Nests n l n') (hl : l.Is .punctuation (.ofChars [b.opener])) :
    l = .opening b.opener (n.get b) ∧ n' = n.set b (n.get b + 1) := by
  cases h with
  | opening a =>
    obtain rfl := Bracket.opener_injective (spelled hl.2)
    exact ⟨rfl, rfl⟩
  | @closing a => exact absurd (spelled hl.2).symm (b.opener_ne_closer a)
  | separator hc => exact absurd (spelled hl.2) (b.separator_ne hc).1
  | plain hk => exact absurd hl.1 hk

theorem of_closer (h : Nests n l n') (hl : l.Is .punctuation (.ofChars [b.closer])) :
    ∃ depth, n.get b = depth + 1 ∧ l = .closing b.closer depth ∧ n' = n.set b depth := by
  cases h with
  | opening a => exact absurd (spelled hl.2) (a.opener_ne_closer b)
  | closing hd =>
    obtain rfl := Bracket.closer_injective (spelled hl.2)
    exact ⟨_, hd, rfl, rfl⟩
  | separator hc => exact absurd (spelled hl.2) (b.separator_ne hc).2
  | plain hk => exact absurd hl.1 hk

theorem of_plain (h : Nests n l n') (hl : l.kind ≠ .punctuation) : n' = n := by
  cases h with
  | opening => exact absurd rfl hl
  | closing => exact absurd rfl hl
  | separator => rfl
  | plain => rfl

end Nests

theorem Nesting.set_set_get (n : Nesting) (b : Bracket) (k : Nat) :
    (n.set b k).set b (n.get b) = n := by
  cases b <;> rfl

/-- What is read at a character: the lexeme, the nesting after it and what is left. -/
inductive ReadsAs (n : Nesting) (c : Char) (cs : List Char) :
    Lexeme → Nesting → List Char → Prop where
  | opening (b : Bracket) :
    c = b.opener → ReadsAs n c cs (.opening b.opener (n.get b)) (n.set b (n.get b + 1)) cs
  | closing {b : Bracket} {depth : Nat} : c = b.closer → n.get b = depth + 1 →
    ReadsAs n c cs (.closing b.closer depth) (n.set b depth) cs
  | numeral {tail : Tail} : c.isDigit ∨ c = '.' → numeralTail (c = '.') c.isDigit cs = tail →
    tail.valid → ReadsAs n c cs (.numeral (c :: tail.raw) tail.point) n tail.rest
  | string {tail : Tail} : c = '"' ∨ c = apostrophe → stringTail c false cs = tail → tail.valid →
    ReadsAs n c cs (.plain .string tail.raw) n tail.rest
  | compound {d : Char} {ds : List Char} : cs = d :: ds → compoundOperators.contains (c, d) →
    ReadsAs n c cs (.plain .operator [c, d]) n ds
  | operator : operatorStarts.contains c → ReadsAs n c cs (.plain .operator [c]) n cs
  | separator : c = ',' ∨ c = ';' → ReadsAs n c cs (.separator c) n cs
  | comment : c = '#' →
    ReadsAs n c cs (.plain .comment (cs.takeWhile (· ≠ '\n'))) n (cs.dropWhile (· ≠ '\n'))
  | eol : c = '\n' → ReadsAs n c cs (.plain .eol [c]) n cs
  | keyword {name : List Char} : c.isAlpha ∨ c = '_' → c :: cs.takeWhile isNameChar = name →
    keywords.contains (String.ofList name) →
    ReadsAs n c cs (.plain .keyword name) n (cs.dropWhile isNameChar)
  | identifier {name : List Char} : c.isAlpha ∨ c = '_' → c :: cs.takeWhile isNameChar = name →
    ¬ keywords.contains (String.ofList name) →
    ReadsAs n c cs (.plain .identifier name) n (cs.dropWhile isNameChar)

theorem readsAs_of_readLexeme {n : Nesting} {c : Char} {cs : List Char} {l : Lexeme}
    (h : (readLexeme n c cs).result = .ok l) :
    ReadsAs n c cs l (readLexeme n c cs).nesting (readLexeme n c cs).rest := by
  revert h
  fun_cases readLexeme n c cs with
  | case1 _ b hb =>
    obtain rfl := Bracket.opener_of_ofOpener? hb
    rintro ⟨⟩
    exact .opening b rfl
  | case2 => rintro ⟨⟩
  | case3 _ _ b hb depth hd =>
    obtain rfl := Bracket.closer_of_ofCloser? hb
    rintro ⟨⟩
    exact .closing rfl hd
  | case4 _ _ _ hc tail =>
    intro h
    by_cases hv : tail.valid
    · cases (if_pos hv).symm.trans h
      exact .numeral hc rfl hv
    · cases (if_neg hv).symm.trans h
  | case5 _ _ _ _ hc tail =>
    intro h
    by_cases hv : tail.valid
    · cases (if_pos hv).symm.trans h
      exact .string hc rfl hv
    · cases (if_neg hv).symm.trans h
  | case6 _ _ _ _ _ d ds hd =>
    rintro ⟨⟩
    exact .compound rfl hd
  | case7 _ _ _ _ hc =>
    rintro ⟨⟩
    exact .operator hc
  | case8 _ _ _ _ hc =>
    rintro ⟨⟩
    exact .operator hc
  | case9 _ _ _ _ _ _ hc =>
    rintro ⟨⟩
    exact .separator hc
  | case10 _ _ _ _ _ _ _ hc =>
    rintro ⟨⟩
    exact .comment hc
  | case11 _ _ _ _ _ _ _ _ hc =>
    rintro ⟨⟩
    exact .eol hc
  | case12 _ _ _ _ _ _ _ _ _ hc name =>
    rintro ⟨⟩
    by_cases hw : keywords.contains (String.ofList name)
    · rw [if_pos hw]
      exact .keyword hc rfl hw
    · rw [if_neg hw]
      exact .identifier hc rfl hw
  | case13 => rintro ⟨⟩

theorem ReadsAs.nests {n n' : Nesting} {c : Char} {cs rest : List Char} {l : Lexeme}
    (h : ReadsAs n c cs l n' rest) : Nests n l n' := by
  cases h with
  | opening b => exact .opening n b
  | closing _ hd => exact .closing hd
  | separator hc => exact .separator n hc
  | numeral => exact .plain n nofun
  | string => exact .plain n nofun
  | compound => exact .plain n nofun
  | operator => exact .plain n nofun
  | comment => exact .plain n nofun
  | eol => exact .plain n nofun
  | keyword => exact .plain n nofun
  | identifier => exact .plain n nofun

theorem ReadsAs.kind_ne {n n' : Nesting} {c : Char} {cs rest : List Char} {l : Lexeme}
    (h : ReadsAs n c cs l n' rest) : l.kind ≠ .eof := by
  intro hl
  cases h <;> cases hl

/-- A token is the end of the source, or is read at the first character behind the white space. -/
theorem Scanner.next_cases {s s' : Scanner} {t : Token} (h : s.next = (.ok t, s')) :
    (t.toLexeme = .eof ∧ s'.nesting = s.nesting) ∨
      ∃ c cs, s.rest.dropWhile isGap = c :: cs ∧
        ReadsAs s.nesting c cs t.toLexeme s'.nesting s'.rest := by
  unfold next at h
  dsimp only at h
  split at h
  case h_1 =>
    cases h
    exact .inl ⟨rfl, rfl⟩
  case h_2 c cs hc =>
    split at h
    case h_1 l hl =>
      cases h
      exact .inr ⟨c, cs, hc, readsAs_of_readLexeme hl⟩
    case h_2 => cases h

theorem Scanner.next_nests {s s' : Scanner} {t : Token} (h : s.next = (.ok t, s')) :
    Nests s.nesting t.toLexeme s'.nesting := by
  rcases next_cases h with ⟨ht, hn⟩ | ⟨c, cs, -, hr⟩
  · rw [ht, hn]
    exact .plain _ nofun
  · exact hr.nests

theorem Lexer.scanner_next {l l' : Lexer} {r : Lexed} (hp : l.peeked = none)
    (h : l.next = (r, l')) : l.scanner.next = (r, l'.scanner) ∧ l'.peeked = none := by
  simp only [Lexer.next, hp, Prod.mk.injEq] at h
  rw [← h.2]
  exact ⟨Prod.ext h.1 rfl, rfl⟩

namespace Cursor

def Step (c d : Cursor) : Prop :=
  c.current.kind ≠ .eof ∧ c.lexer.next = (.ok d.current, d.lexer)

variable {c d e : Cursor}

section Take

variable {m : Type → Type} [Monad m] [Watch m]

theorem Step.take_eq (h : c.Step d) :
    (c.take h.1 : m (Smaller c)) = do
      Watch.note (.read (.ok d.current))
      return ⟨d, size_lt_of_next h.1 h.2⟩ := by
  have hread : c.lexer.next.1 = .ok d.current := congrArg Prod.fst h.2
  unfold Cursor.take
  rw [hread]
  split
  case h_1 t l hn =>
    cases hn.symm.trans h.2
    rfl
  case h_2 e l hn => cases hn.symm.trans h.2

theorem take_eq_of_error (hc : c.current.kind ≠ .eof) {e : LexError} {l : Lexer}
    (h : c.lexer.next = (.error e, l)) :
    (c.take hc : m (Smaller c)) = (do
      Watch.note (.read (.error e))
      Watch.stop (lexicalFailure c.current e l)) := by
  have hread : c.lexer.next.1 = .error e := congrArg Prod.fst h
  unfold Cursor.take
  rw [hread]
  split
  case h_1 t l hn => cases hn.symm.trans h
  case h_2 e l hn =>
    cases hn.symm.trans h
    rfl

theorem ofLexer_of_ok {t : Token} {l l' : Lexer} (h : l.next = (.ok t, l')) :
    (ofLexer l : m Cursor) = do
      Watch.note (.read (.ok t))
      return ⟨t, l'⟩ := by
  rw [ofLexer, h]

theorem ofLexer_of_error {e : LexError} {l l' : Lexer} (h : l.next = (.error e, l')) :
    (ofLexer l : m Cursor) = (do
      Watch.note (.read (.error e))
      Watch.stop (lexicalFailure .zero e l')) := by
  rw [ofLexer, h]

end Take

theorem Step.take (h : c.Step d) : ∃ hd, c.take h.1 = .ok ⟨d, hd⟩ := by
  rw [h.take_eq, note_bind]
  exact ⟨_, rfl⟩

theorem take_of_error (hc : c.current.kind ≠ .eof) {e : LexError} {l : Lexer}
    (h : c.lexer.next = (.error e, l)) : c.take hc = .error (lexicalFailure c.current e l) := by
  rw [take_eq_of_error hc h, note_bind]
  rfl

theorem Step.expect {want : Lexeme} (h : c.Step d) (hc : c.current.toLexeme = want)
    (hw : want.kind ≠ .eof) : ∃ hd, c.expect want hw = .ok ⟨d, hd⟩ := by
  unfold Cursor.expect
  rw [dif_pos hc]
  exact h.take

inductive Steps : Cursor → List Lexeme → Cursor → Prop where
  | refl (c : Cursor) : Steps c [] c
  | cons {c d e : Cursor} {w : List Lexeme} :
    c.Step d → Steps d w e → Steps c (c.current.toLexeme :: w) e

variable {u v w : List Lexeme}

theorem Step.steps (h : c.Step d) : c.Steps [c.current.toLexeme] d := .cons h (.refl d)

theorem Steps.trans (h : c.Steps u d) (h' : d.Steps v e) : c.Steps (u ++ v) e := by
  induction h with
  | refl c => exact h'
  | cons hs _ ih => exact .cons hs (ih h')

theorem steps_append : c.Steps (u ++ v) e ↔ ∃ d, c.Steps u d ∧ d.Steps v e := by
  constructor
  · intro h
    induction u generalizing c with
    | nil => exact ⟨c, .refl c, h⟩
    | cons l u ih =>
      cases h with
      | cons hs ht =>
        obtain ⟨d, hu, hv⟩ := ih ht
        exact ⟨d, .cons hs hu, hv⟩
  · rintro ⟨d, hu, hv⟩
    exact hu.trans hv

theorem steps_cons {l : Lexeme} :
    c.Steps (l :: w) e ↔ c.current.toLexeme = l ∧ ∃ d, c.Step d ∧ d.Steps w e := by
  constructor
  · rintro (_ | ⟨hs, ht⟩)
    exact ⟨rfl, _, hs, ht⟩
  · rintro ⟨rfl, d, hs, ht⟩
    exact .cons hs ht

theorem steps_nil : c.Steps [] d ↔ c = d := by
  constructor
  · rintro ⟨⟩
    rfl
  · rintro rfl
    exact .refl c

theorem steps_singleton {l : Lexeme} : c.Steps [l] d ↔ c.current.toLexeme = l ∧ c.Step d := by
  rw [steps_cons]
  constructor
  · rintro ⟨hl, e, hs, he⟩
    obtain rfl := steps_nil.1 he
    exact ⟨hl, hs⟩
  · rintro ⟨hl, hs⟩
    exact ⟨hl, d, hs, .refl d⟩

theorem Steps.skipBlank (h : c.Steps u d) (hu : ∀ l ∈ u, l.isBlank) (hd : ¬ d.current.isBlank) :
    ∃ hd, c.skipBlank = .ok ⟨d, hd⟩ := by
  induction h with
  | refl c =>
    rw [skipBlank.eq_def, dif_neg hd]
    exact ⟨_, rfl⟩
  | cons hs _ ih =>
    obtain ⟨hb, hu⟩ := List.forall_mem_cons.1 hu
    obtain ⟨_, ht⟩ := hs.take
    obtain ⟨_, hr⟩ := ih hu hd
    rw [skipBlank.eq_def, dif_pos hb]
    exact ⟨_, bind_eq_ok.2 ⟨_, ht, bind_eq_ok.2 ⟨_, hr, rfl⟩⟩⟩

theorem Step.scanner (h : c.Step d) (hp : c.lexer.peeked = none) :
    c.lexer.scanner.next = (.ok d.current, d.lexer.scanner) ∧ d.lexer.peeked = none :=
  Lexer.scanner_next hp h.2

theorem step_of_scanner {s : Scanner} {t : Token} (hc : c.current.kind ≠ .eof)
    (hp : c.lexer.peeked = none) (hn : c.lexer.scanner.next = (.ok t, s)) :
    c.Step ⟨t, { scanner := s }⟩ := by
  refine ⟨hc, ?_⟩
  simp only [Lexer.next, hp, hn]

/-- The current token has just been read, and before it `n` brackets were open. -/
structure At (c : Cursor) (n : Nesting) : Prop where
  peeked : c.lexer.peeked = none
  nests : Nests n c.current.toLexeme c.lexer.scanner.nesting

theorem At.step {n : Nesting} (h : c.At n) (hs : c.Step d) : d.At c.lexer.scanner.nesting := by
  obtain ⟨hn, hp⟩ := hs.scanner h.peeked
  exact ⟨hp, Scanner.next_nests hn⟩

theorem At.steps {n : Nesting} (h : c.At n) (hs : c.Steps w d) : ∃ n', d.At n' := by
  induction hs generalizing n with
  | refl => exact ⟨n, h⟩
  | cons hstep _ ih => exact ih (h.step hstep)

end Cursor

theorem Position.offset_advance (p : Position) (cs : List Char) :
    (p.advance cs).offset = p.offset + cs.length := by
  induction cs generalizing p with
  | nil => simp [advance]
  | cons c cs ih =>
    have hnext : (p.next c).offset = p.offset + 1 := by
      unfold next
      split <;> rfl
    have hrest := ih (p.next c)
    rw [advance, List.foldl_cons, ← advance, hrest, hnext, List.length_cons]
    omega

namespace Scanner

variable {s s' : Scanner} {t : Token}

theorem run_eof (h : s.next = (.ok t, s')) (ht : t.kind = .eof) : s.run = ([t], none) := by
  rw [run.eq_def]
  split
  case h_1 hn => cases hn.symm.trans h
  case h_2 hn =>
    cases hn.symm.trans h
    exact dif_pos ht

theorem run_cons {ts : List Token} {e : Option LexError} (h : s.next = (.ok t, s'))
    (ht : t.kind ≠ .eof) (hr : s'.run = (ts, e)) : s.run = (t :: ts, e) := by
  rw [run.eq_def]
  split
  case h_1 hn => cases hn.symm.trans h
  case h_2 hn =>
    cases hn.symm.trans h
    rw [dif_neg ht, hr]

theorem run_error {e : LexError} (h : s.next = (.error e, s')) : s.run = ([], some e) := by
  rw [run.eq_def]
  split
  case h_1 hn =>
    cases hn.symm.trans h
    rfl
  case h_2 hn => cases hn.symm.trans h

theorem run_of_steps {c d : Cursor} {w : List Lexeme} (h : c.Steps w d)
    (hs : s.next = (.ok c.current, c.lexer.scanner)) (hp : c.lexer.peeked = none)
    (hd : d.current.kind = .eof) :
    ∃ ts, s.run = (ts, none) ∧ ts.map (·.toLexeme) = w ++ [d.current.toLexeme] := by
  induction h generalizing s with
  | refl c => exact ⟨_, run_eof hs hd, rfl⟩
  | cons hstep _ ih =>
    obtain ⟨hn, hp'⟩ := hstep.scanner hp
    obtain ⟨ts, hrun, hts⟩ := ih hn hp' hd
    refine ⟨_, run_cons hs hstep.1 hrun, ?_⟩
    rw [List.map_cons, hts, List.cons_append]

theorem steps_of_run {ts : List Token} (h : s.run = (ts, none)) :
    ∃ t s' w d, s.next = (.ok t, s') ∧ Cursor.Steps ⟨t, { scanner := s' }⟩ w d ∧
      d.current.kind = .eof ∧ ts.map (·.toLexeme) = w ++ [d.current.toLexeme] := by
  induction s using run.induct generalizing ts with
  | case1 s e s' hn => cases (run_error hn).symm.trans h
  | case2 s t s' hn ht =>
    cases (run_eof hn ht).symm.trans h
    exact ⟨t, s', [], _, hn, .refl _, ht, rfl⟩
  | case3 s t s' hn ht _ us e hrun ih =>
    cases (run_cons hn ht hrun).symm.trans h
    obtain ⟨t', s'', w, d, hn', hw, hd, hus⟩ := ih hrun
    have hstep := Cursor.step_of_scanner (c := ⟨t, { scanner := s' }⟩) ht rfl hn'
    refine ⟨t, s', t.toLexeme :: w, d, hn, .cons hstep hw, hd, ?_⟩
    rw [List.map_cons, hus, List.cons_append]

theorem next_offset (h : s.next = (.ok t, s')) :
    s.pos.offset ≤ t.pos.offset ∧ (t.kind ≠ .eof → t.pos.offset < s'.pos.offset) := by
  have hgap : s.pos.offset ≤ s.skipGap.pos.offset := by
    rw [skipGap, Position.offset_advance]
    omega
  unfold next at h
  dsimp only at h
  split at h
  case h_1 =>
    cases h
    exact ⟨hgap, fun hk => absurd rfl hk⟩
  case h_2 c cs hc =>
    split at h
    case h_1 =>
      cases h
      have htaken := List.length_pos_iff.2 (readLexeme_taken_ne_nil s.skipGap.nesting c cs)
      refine ⟨hgap, fun _ => ?_⟩
      rw [Position.offset_advance]
      dsimp only
      omega
    case h_2 => cases h

theorem offset_le_of_mem_run (h : t ∈ s.run.1) : s.pos.offset ≤ t.pos.offset := by
  induction s using run.induct with
  | case1 s e s' hn =>
    rw [run_error hn] at h
    cases h
  | case2 s t' s' hn ht =>
    rw [run_eof hn ht, List.mem_singleton] at h
    rw [h]
    exact (next_offset hn).1
  | case3 s t' s' hn ht _ us e hrun ih =>
    rw [run_cons hn ht hrun] at h
    obtain ⟨hle, hlt⟩ := next_offset hn
    rcases List.mem_cons.1 h with rfl | h
    · exact hle
    · have := ih (by rw [hrun]; exact h)
      have := hlt ht
      omega

theorem run_pairwise (s : Scanner) :
    s.run.1.Pairwise fun t t' => t.pos.offset < t'.pos.offset := by
  induction s using run.induct with
  | case1 s e s' hn =>
    rw [run_error hn]
    exact .nil
  | case2 s t s' hn ht =>
    rw [run_eof hn ht]
    exact List.pairwise_singleton _ _
  | case3 s t s' hn ht _ us e hrun ih =>
    rw [hrun] at ih
    rw [run_cons hn ht hrun]
    refine .cons (fun t' ht' => ?_) ih
    have hle : s'.pos.offset ≤ t'.pos.offset := offset_le_of_mem_run (by rw [hrun]; exact ht')
    have := (next_offset hn).2 ht
    omega

end Scanner

end Reckon
