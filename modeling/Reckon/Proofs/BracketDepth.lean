import Reckon.Proofs.Tiling

namespace Reckon

def Lexeme.opens (b : Bracket) (l : Lexeme) : Bool := l.isOpening b.opener

def Lexeme.closes (b : Bracket) (l : Lexeme) : Bool :=
  l.isClosing && l.raw = .ofChars [b.closer]

inductive Counts (b : Bracket) (k : Nat) (l : Lexeme) : Nat → Prop where
  | opens : l.opens b → ¬ l.closes b → l.depth = k → Counts b k l (k + 1)
  | closes {depth : Nat} : ¬ l.opens b → l.closes b → k = depth + 1 → l.depth = depth →
    Counts b k l depth
  | other : ¬ l.opens b → ¬ l.closes b → Counts b k l k

theorem Nests.counts {n n' : Nesting} {l : Lexeme} (h : Nests n l n') (b : Bracket) :
    Counts b (n.get b) l (n'.get b) := by
  have hshut (c : Char) (d : Int) : ¬ (Lexeme.opening c d).closes b := Bool.false_ne_true
  have hopen (c : Char) (d : Int) : ¬ (Lexeme.closing c d).opens b := Bool.false_ne_true
  cases h with
  | opening a =>
    by_cases ha : a = b
    · subst ha
      rw [Nesting.get_set_self]
      exact .opens (by simp [Lexeme.opens, Lexeme.isOpening, Lexeme.opening]) (hshut _ _) rfl
    · rw [Nesting.get_set_of_ne _ _ (Ne.symm ha)]
      refine .other ?_ (hshut _ _)
      intro hl
      simp only [Lexeme.opens, Lexeme.isOpening, Lexeme.opening, decide_eq_true_eq] at hl
      exact ha (Bracket.opener_injective (Nests.spelled hl.2.2))
  | @closing a depth hd =>
    by_cases ha : a = b
    · subst ha
      rw [Nesting.get_set_self]
      exact .closes (hopen _ _) (by simp [Lexeme.closes, Lexeme.isClosing, Lexeme.closing]) hd rfl
    · rw [Nesting.get_set_of_ne _ _ (Ne.symm ha)]
      refine .other (hopen _ _) ?_
      intro hl
      simp only [Lexeme.closes, Bool.and_eq_true, decide_eq_true_eq] at hl
      exact ha (Bracket.closer_injective (Nests.spelled hl.2))
  | separator _ => exact .other Bool.false_ne_true Bool.false_ne_true
  | plain hk =>
    refine .other ?_ ?_
    · intro hl
      simp only [Lexeme.opens, Lexeme.isOpening, decide_eq_true_eq] at hl
      exact hk hl.1
    · intro hl
      simp only [Lexeme.closes, Lexeme.isClosing, Bool.and_eq_true, decide_eq_true_eq] at hl
      exact hk hl.1.1

/-- The openers of a kind that wait for their closers, the last first. A closer is paired with the
last of them. -/
def unclosed (b : Bracket) (ts : List Token) : List Token :=
  ts.foldl (fun waiting t =>
    if t.opens b then t :: waiting else if t.closes b then waiting.tail else waiting) []

inductive Ladder : List Token → Nat → Prop where
  | nil : Ladder [] 0
  | cons {t : Token} {ts : List Token} {k : Nat} :
    t.depth = k → Ladder ts k → Ladder (t :: ts) (k + 1)

theorem Ladder.uncons {ts : List Token} {k : Nat} (h : Ladder ts (k + 1)) :
    ∃ u us, ts = u :: us ∧ u.depth = k ∧ Ladder us k := by
  cases h with
  | cons hu hus => exact ⟨_, _, rfl, hu, hus⟩

/-- Of a kind, `k` brackets are open after some tokens. -/
structure Nested (b : Bracket) (ts : List Token) (k : Nat) : Prop where
  ladder : Ladder (unclosed b ts) k
  balance : ts.countP (·.opens b) = ts.countP (·.closes b) + k

namespace Nested

variable {b : Bracket} {ts : List Token} {t : Token} {k k' : Nat}

theorem step (h : Nested b ts k) (ht : Counts b k t.toLexeme k') : Nested b (ts ++ [t]) k' := by
  have hpush : unclosed b (ts ++ [t]) = if t.opens b then t :: unclosed b ts
      else if t.closes b then (unclosed b ts).tail else unclosed b ts := by
    simp only [unclosed, List.foldl_append, List.foldl_cons, List.foldl_nil]
  have hbalance := h.balance
  cases ht with
  | opens ho hc hd =>
    constructor
    · rw [hpush, if_pos ho]
      exact .cons hd h.ladder
    · simp only [List.countP_append, List.countP_singleton, ho, hc, if_true]
      simp only [Bool.false_eq_true, if_false]
      omega
  | closes ho hc hk hd =>
    subst hk
    constructor
    · rw [hpush, if_neg ho, if_pos hc]
      obtain ⟨u, us, heq, -, hus⟩ := h.ladder.uncons
      rw [heq]
      exact hus
    · simp only [List.countP_append, List.countP_singleton, ho, hc, if_true]
      simp only [Bool.false_eq_true, if_false]
      omega
  | other ho hc =>
    constructor
    · rw [hpush, if_neg ho, if_neg hc]
      exact h.ladder
    · simp only [List.countP_append, List.countP_singleton, ho, hc]
      simp only [Bool.false_eq_true, if_false]
      omega

end Nested

inductive Refuses (n : Nesting) (c : Char) : LexFault → Prop where
  | unopened (b : Bracket) : c = b.closer → n.get b = 0 →
    Refuses n c (.unopened b.closer b.opener)
  | invalidNumber (raw : Text) : Refuses n c (.invalidNumber raw)
  | unterminatedString : Refuses n c .unterminatedString
  | unknownSymbol (raw : Text) : Refuses n c (.unknownSymbol raw)

theorem refuses_of_readLexeme {n : Nesting} {c : Char} {cs : List Char} {f : LexFault}
    (h : (readLexeme n c cs).result = .error f) :
    (readLexeme n c cs).nesting = n ∧ Refuses n c f := by
  generalize hr : readLexeme n c cs = r at h ⊢
  unfold readLexeme at hr
  split at hr
  · subst hr
    cases h
  split at hr
  case h_1 b hb =>
    obtain rfl := Bracket.closer_of_ofCloser? hb
    split at hr
    case h_1 hz =>
      subst hr
      cases h
      exact ⟨rfl, .unopened b rfl hz⟩
    · subst hr
      cases h
  split at hr
  · subst hr
    dsimp only at h
    split at h
    · cases h
    · cases h
      exact ⟨rfl, .invalidNumber _⟩
  split at hr
  · subst hr
    dsimp only at h
    split at h
    · cases h
    · cases h
      exact ⟨rfl, .unterminatedString⟩
  split at hr
  · split at hr
    · split at hr
      · subst hr
        cases h
      · subst hr
        cases h
    · subst hr
      cases h
  split at hr
  · subst hr
    cases h
  split at hr
  · subst hr
    cases h
  split at hr
  · subst hr
    cases h
  split at hr
  · subst hr
    cases h
  · subst hr
    cases h
    exact ⟨rfl, .unknownSymbol _⟩

theorem readLexeme_unopened {n : Nesting} {b : Bracket} (h : n.get b = 0) (cs : List Char) :
    readLexeme n b.closer cs = ⟨.error (.unopened b.closer b.opener), n, [b.closer], cs⟩ := by
  cases b <;> simp_all [readLexeme, Bracket.ofOpener?, Bracket.ofCloser?, Bracket.closer]

theorem readLexeme_closing {n : Nesting} {b : Bracket} {depth : Nat} (h : n.get b = depth + 1)
    (cs : List Char) :
    readLexeme n b.closer cs = ⟨.ok (.closing b.closer depth), n.set b depth, [b.closer], cs⟩ := by
  cases b <;> simp_all [readLexeme, Bracket.ofOpener?, Bracket.ofCloser?, Bracket.closer]

namespace Lexed

variable {r : Lexed}

theorem eq_error {f : LexFault} (h : r.face = .error f) : r = .error ⟨f, r.pos⟩ := by
  cases r with
  | ok t => cases h
  | error e =>
    cases h
    rfl

theorem eq_ok {l : Lexeme} (h : r.face = .ok l) : ∃ t : Token, r = .ok t ∧ t.toLexeme = l := by
  cases r with
  | error e => cases h
  | ok t => exact ⟨t, rfl, Except.ok.inj h⟩

end Lexed

namespace Lexer

def returned (rs : List Lexed) : List Token := rs.filterMap Except.toOption

variable {l : Lexer} {b : Bracket}

theorem next_refused {e : LexError} (hp : l.peeked = none) (h : l.next.1 = .error e) :
    l.next.2.scanner.nesting = l.scanner.nesting ∧
      ∃ c cs, l.scanner.rest.dropWhile Scanner.isGap = c :: cs ∧
        Refuses l.scanner.nesting c e.fault := by
  have hnext : l.next = (l.scanner.next.1, ⟨l.scanner.next.2, none⟩) := by rw [Lexer.next, hp]
  rw [hnext] at h ⊢
  dsimp only at h ⊢
  cases hrest : l.scanner.rest.dropWhile Scanner.isGap with
  | nil =>
    rw [Scanner.next_of_end hrest] at h
    cases h
  | cons c cs =>
    obtain ⟨hface, -, hafter⟩ := Scanner.next_of_start hrest
    rw [h] at hface
    obtain ⟨hnesting, hrefuses⟩ := refuses_of_readLexeme hface.symm
    rw [hafter]
    exact ⟨hnesting, c, cs, rfl, hrefuses⟩

theorem nested_next {ts : List Token} (hp : l.peeked = none)
    (h : Nested b ts (l.scanner.nesting.get b)) :
    Nested b (ts ++ returned [l.next.1]) (l.next.2.scanner.nesting.get b) := by
  cases hr : l.next.1 with
  | error e =>
    have hnil : returned [.error e] = [] := rfl
    rw [hnil, List.append_nil, (next_refused hp hr).1]
    exact h
  | ok t =>
    obtain ⟨hnext, -⟩ := scanner_next (r := .ok t) hp (Prod.ext hr rfl)
    exact h.step ((Scanner.next_nests hnext).counts b)

theorem nested_results {source : List Char} {ts : List Token} (h : HasRead source l)
    (hts : Nested b ts (l.scanner.nesting.get b)) (n : Nat) :
    Nested b (ts ++ returned (l.results n)) ((l.resume n).scanner.nesting.get b) := by
  induction n generalizing l ts with
  | zero =>
    have hnil : returned (l.results 0) = [] := rfl
    rw [hnil, List.append_nil]
    exact hts
  | succ n ih =>
    have hrest := ih h.next (nested_next h.peeked hts)
    have hcons : returned (l.results (n + 1)) =
        returned [l.next.1] ++ returned (l.next.2.results n) := by
      rw [returned, results, ← List.singleton_append, List.filterMap_append]
      rfl
    rw [hcons, ← List.append_assoc]
    exact hrest

theorem faces_congr {l' : Lexer} (hp : l.peeked = none) (hp' : l'.peeked = none)
    (hrest : l'.scanner.rest = l.scanner.rest) (hn : l'.scanner.nesting = l.scanner.nesting)
    (n : Nat) : (l'.results n).map Lexed.face = (l.results n).map Lexed.face := by
  induction n generalizing l l' with
  | zero => rfl
  | succ n ih =>
    have hnext : l.next = (l.scanner.next.1, ⟨l.scanner.next.2, none⟩) := by rw [Lexer.next, hp]
    have hnext' : l'.next = (l'.scanner.next.1, ⟨l'.scanner.next.2, none⟩) := by
      rw [Lexer.next, hp']
    simp only [results, List.map_cons, hnext, hnext']
    cases hstart : l.scanner.rest.dropWhile Scanner.isGap with
    | nil =>
      have hend := Scanner.next_of_end hstart
      have hend' := Scanner.next_of_end (hrest ▸ hstart)
      rw [hend, hend']
      exact congrArg _ (ih rfl rfl rfl hn)
    | cons c cs =>
      obtain ⟨hface, -, hafter⟩ := Scanner.next_of_start hstart
      obtain ⟨hface', -, hafter'⟩ := Scanner.next_of_start (hrest ▸ hstart)
      rw [hface, hface', hafter, hafter', hn]
      exact congrArg _ (ih rfl rfl rfl rfl)

theorem results_split {n : Nat} {before after : List Lexed} {r : Lexed}
    (h : l.results n = before ++ r :: after) :
    l.results before.length = before ∧ (l.resume before.length).next.1 = r := by
  induction before generalizing l n with
  | nil =>
    cases n with
    | zero => cases h
    | succ n => exact ⟨rfl, (List.cons.inj h).1⟩
  | cons x before ih =>
    cases n with
    | zero => cases h
    | succ n =>
      obtain ⟨hx, hrest⟩ := List.cons.inj h
      obtain ⟨hbefore, hr⟩ := ih hrest
      refine ⟨?_, hr⟩
      rw [List.length_cons, results, hx, hbefore]

/-- What a call yields where a closer stands: an error that names it and its opener if none of its
kind is open, and otherwise the closer. -/
theorem next_closer {source : List Char} (h : HasRead source l)
    (hc : source[(Lexed.pos l.next.1).offset.toNat]? = some b.closer) :
    (l.scanner.nesting.get b = 0 ∧
      l.next.1 = .error ⟨.unopened b.closer b.opener, Lexed.pos l.next.1⟩) ∨
    ∃ depth t, l.scanner.nesting.get b = depth + 1 ∧ l.next.1 = .ok t ∧
      t.toLexeme = .closing b.closer depth := by
  have hnext : l.next.1 = l.scanner.next.1 := by rw [Lexer.next, h.peeked]
  rw [h.char_at] at hc
  obtain ⟨cs, hstart⟩ := List.head?_eq_some_iff.1 hc
  obtain ⟨hface, -, -⟩ := Scanner.next_of_start hstart
  rw [← hnext] at hface
  cases hn : l.scanner.nesting.get b with
  | zero =>
    rw [readLexeme_unopened hn] at hface
    exact .inl ⟨rfl, Lexed.eq_error hface⟩
  | succ depth =>
    rw [readLexeme_closing hn] at hface
    obtain ⟨t, ht, hlexeme⟩ := Lexed.eq_ok hface
    exact .inr ⟨depth, t, rfl, ht, hlexeme⟩

theorem next_counts {t : Token} (hp : l.peeked = none) (ht : l.next.1 = .ok t) (b : Bracket) :
    ∃ k, Counts b (l.scanner.nesting.get b) t.toLexeme k := by
  obtain ⟨hnext, -⟩ := scanner_next (r := .ok t) hp (Prod.ext ht rfl)
  exact ⟨_, (Scanner.next_nests hnext).counts b⟩

section

variable {source : List Char} {ts : List Token}

theorem opener_depth (hp : l.peeked = none) (hts : Nested b ts (l.scanner.nesting.get b))
    {t : Token} (ht : l.next.1 = .ok t) (hopens : t.opens b) :
    t.depth = (ts.countP (·.opens b) : Int) - ts.countP (·.closes b) := by
  have hbalance := hts.balance
  obtain ⟨k, hk⟩ := next_counts hp ht b
  cases hk with
  | opens _ _ hd =>
    rw [hd]
    omega
  | closes ho => exact absurd hopens ho
  | other ho => exact absurd hopens ho

theorem closer_depth (hp : l.peeked = none) (hts : Nested b ts (l.scanner.nesting.get b))
    {t : Token} (ht : l.next.1 = .ok t) (hcloses : t.closes b) :
    ∃ u rest, unclosed b ts = u :: rest ∧ t.depth = u.depth := by
  obtain ⟨k, hk⟩ := next_counts hp ht b
  cases hk with
  | opens _ hc => exact absurd hcloses hc
  | other _ hc => exact absurd hcloses hc
  | closes _ _ hdepth hd =>
    obtain ⟨u, rest, hwaiting, hu, -⟩ := (hdepth ▸ hts.ladder).uncons
    exact ⟨u, rest, hwaiting, hd.trans hu.symm⟩

theorem closer_refused_iff (h : HasRead source l) (hts : Nested b ts (l.scanner.nesting.get b))
    (hc : source[(Lexed.pos l.next.1).offset.toNat]? = some b.closer) :
    (l.next.1 = .error ⟨.unopened b.closer b.opener, Lexed.pos l.next.1⟩ ↔
        ts.countP (·.opens b) = ts.countP (·.closes b)) ∧
      (ts.countP (·.opens b) ≠ ts.countP (·.closes b) → ∃ t, l.next.1 = .ok t ∧ t.closes b) := by
  have hbalance := hts.balance
  obtain ⟨hzero, herror⟩ | ⟨depth, t, hsucc, hok, hlexeme⟩ := next_closer h hc
  · exact ⟨⟨fun _ => by omega, fun _ => herror⟩, fun hne => absurd (by omega) hne⟩
  · refine ⟨⟨fun he => ?_, fun he => absurd he (by omega)⟩, fun _ => ⟨t, hok, ?_⟩⟩
    · cases hok.symm.trans he
    · rw [hlexeme]
      simp [Lexeme.closes, Lexeme.isClosing, Lexeme.closing]

theorem unopened_at (h : HasRead source l) {symbol opener : Char} {p : Position}
    (he : l.next.1 = .error ⟨.unopened symbol opener, p⟩) :
    ∃ a : Bracket, symbol = a.closer ∧ opener = a.opener ∧
      source[p.offset.toNat]? = some symbol := by
  obtain ⟨-, c, cs, hrest, hrefuses⟩ := next_refused h.peeked he
  have hplace := h.char_at
  rw [he, hrest] at hplace
  cases hrefuses with
  | unopened a hc => exact ⟨a, rfl, rfl, hplace.trans (congrArg some hc)⟩

theorem faces_after_error (h : HasRead source l) {e : LexError} (he : l.next.1 = .error e)
    (n : Nat) :
    (l.next.2.results n).map Lexed.face =
      (({ scanner := { l.scanner with rest := l.next.2.scanner.rest } } : Lexer).results n).map
        Lexed.face := by
  refine faces_congr ?_ h.next.peeked ?_ ?_ n
  · rfl
  · rfl
  · exact (next_refused h.peeked he).1

end

/-- The depths of brackets are exact over a whole run, for each kind on its own. Before a result `r`
of the run some tokens were returned. An opener is as deep as there are openers without closers
among them; a closer is as deep as the opener it is paired with, the last that waits; where a closer
stands in the source the call fails with an error that names it and its opener exactly if there are
as many closers as openers; and after any error the lexer goes on as if what it read last were not
there. -/
theorem bracket_depths_exact (source : List Char) (n : Nat) (b : Bracket)
    {before after : List Lexed}
    {r : Lexed} (h : (ofSource source).results n = before ++ r :: after) :
    let ts := returned before
    (∀ t, r = .ok t → t.opens b →
      t.depth = (ts.countP (·.opens b) : Int) - ts.countP (·.closes b)) ∧
    (∀ t, r = .ok t → t.closes b → ∃ u rest, unclosed b ts = u :: rest ∧ t.depth = u.depth) ∧
    (source[r.pos.offset.toNat]? = some b.closer →
      (r = .error ⟨.unopened b.closer b.opener, r.pos⟩ ↔
        ts.countP (·.opens b) = ts.countP (·.closes b)) ∧
      (ts.countP (·.opens b) ≠ ts.countP (·.closes b) → ∃ t, r = .ok t ∧ t.closes b)) ∧
    (∀ symbol opener p, r = .error ⟨.unopened symbol opener, p⟩ → ∃ a : Bracket,
      symbol = a.closer ∧ opener = a.opener ∧ source[p.offset.toNat]? = some symbol) ∧
    (∀ e, r = .error e → ∀ further,
      let l := (ofSource source).resume before.length
      let l' := (ofSource source).resume (before.length + 1)
      (l'.results further).map Lexed.face =
        (({ scanner := { l.scanner with rest := l'.scanner.rest } } : Lexer).results
          further).map Lexed.face) := by
  intro ts
  obtain ⟨hbefore, hr⟩ := results_split h
  have hsucc := resume_succ (ofSource source) before.length
  have halong := (hasRead_ofSource source).resume before.length
  have hstart : Nested b [] (({} : Nesting).get b) := by
    cases b <;> exact ⟨.nil, rfl⟩
  have hnested := nested_results (hasRead_ofSource source) hstart before.length
  rw [hbefore] at hnested
  subst hr
  refine ⟨fun t => opener_depth halong.peeked hnested, fun t => closer_depth halong.peeked hnested,
    closer_refused_iff halong hnested, fun _ _ _ => unopened_at halong, fun e he further => ?_⟩
  dsimp only
  rw [hsucc]
  exact faces_after_error halong he further

/-- A closer behind one that was refused is paired with the opener in front of both. -/
theorem bracket_depths_exact_refused :
    let opener : Token := { Lexeme.opening '(' 0 with pos := ⟨1, 1, 0⟩ }
    let refused : LexError := ⟨.unopened ']' '[', ⟨1, 2, 1⟩⟩
    let closer : Token := { Lexeme.closing ')' 0 with pos := ⟨1, 3, 2⟩ }
    (ofSource ['(', ']', ')']).results 3 = [.ok opener, .error refused] ++ .ok closer :: [] ∧
      ∃ u rest, unclosed .round (returned [.ok opener, .error refused]) = u :: rest ∧
        closer.depth = u.depth := by
  intro opener refused closer
  have hrun : (ofSource ['(', ']', ')']).results 3 =
      [.ok opener, .error refused] ++ .ok closer :: [] := rfl
  exact ⟨hrun, (bracket_depths_exact _ 3 .round hrun).2.1 closer rfl (by decide)⟩

end Lexer

end Reckon
