import Reckon.Proofs.WellFormed

namespace Reckon

theorem Position.advance_append (p : Position) (cs ds : List Char) :
    p.advance (cs ++ ds) = (p.advance cs).advance ds := List.foldl_append

namespace Scanner

theorem next_gap {gap : List Char} (hgap : ∀ c ∈ gap, isGap c) (cs : List Char) (pos : Position)
    (n : Nesting) : next ⟨gap ++ cs, pos, n⟩ = next ⟨cs, pos.advance gap, n⟩ := by
  simp only [next, skipGap, List.takeWhile_append_of_pos hgap, List.dropWhile_append_of_pos hgap,
    Position.advance_append]

theorem next_of_readLexeme {n n' : Nesting} {c : Char} {cs taken rest : List Char} {l : Lexeme}
    (hc : isGap c = false) (h : readLexeme n c cs = ⟨.ok l, n', taken, rest⟩) (pos : Position) :
    next ⟨c :: cs, pos, n⟩ = (.ok { l with pos }, ⟨rest, pos.advance taken, n'⟩) := by
  simp only [next, skipGap, List.dropWhile_cons, List.takeWhile_cons, hc, Bool.false_eq_true,
    if_false, h]
  rfl

theorem next_of_readLexeme_error {n n' : Nesting} {c : Char} {cs taken rest : List Char}
    {fault : LexFault} (hc : isGap c = false)
    (h : readLexeme n c cs = ⟨.error fault, n', taken, rest⟩) (pos : Position) :
    next ⟨c :: cs, pos, n⟩ = (.error ⟨fault, pos⟩, ⟨rest, pos.advance taken, n'⟩) := by
  simp only [next, skipGap, List.dropWhile_cons, List.takeWhile_cons, hc, Bool.false_eq_true,
    if_false, h]
  rfl

end Scanner

inductive Scanner.Reaches : Scanner → List Lexeme → Scanner → Prop where
  | refl (s : Scanner) : Reaches s [] s
  | cons {s s' s'' : Scanner} {t : Token} {w : List Lexeme} :
    s.next = (.ok t, s') → t.kind ≠ .eof → Reaches s' w s'' → Reaches s (t.toLexeme :: w) s''

theorem Scanner.Reaches.trans {s s' s'' : Scanner} {v w : List Lexeme} (h : s.Reaches v s')
    (h' : s'.Reaches w s'') : s.Reaches (v ++ w) s'' := by
  induction h with
  | refl => exact h'
  | cons hn ht _ ih => exact .cons hn ht (ih h')

/-- The characters `cs` are read as the lexemes `w` up to `ds`, wherever they stand; the brackets
`n` are open before them and `n'` after them. -/
def Emits (n : Nesting) (cs : List Char) (w : List Lexeme) (n' : Nesting) (ds : List Char) : Prop :=
  ∀ pos, ∃ pos', Scanner.Reaches ⟨cs, pos, n⟩ w ⟨ds, pos', n'⟩

def Nesting.inside (n : Nesting) (b : Bracket) : Nesting := n.set b (n.get b + 1)

namespace Emits

variable {n n' n'' : Nesting} {cs ds es : List Char} {v w : List Lexeme} {l : Lexeme}

theorem trans (h : Emits n cs v n' ds) (h' : Emits n' ds w n'' es) :
    Emits n cs (v ++ w) n'' es := by
  intro pos
  obtain ⟨pos', hr⟩ := h pos
  obtain ⟨pos'', hr'⟩ := h' pos'
  exact ⟨pos'', hr.trans hr'⟩

theorem cons (h : Emits n cs [l] n' ds) (h' : Emits n' ds w n'' es) : Emits n cs (l :: w) n'' es :=
  h.trans h'

theorem gap {gap : List Char} (hgap : ∀ c ∈ gap, Scanner.isGap c)
    (h : Emits n cs (l :: w) n' ds) : Emits n (gap ++ cs) (l :: w) n' ds := by
  intro pos
  obtain ⟨pos', hr⟩ := h (pos.advance gap)
  cases hr with
  | cons hn ht hr => exact ⟨pos', .cons ((Scanner.next_gap hgap cs pos n).trans hn) ht hr⟩

theorem space (h : Emits n cs (l :: w) n' ds) : Emits n (' ' :: cs) (l :: w) n' ds :=
  h.gap (List.forall_mem_singleton.2 rfl)

theorem of_readLexeme {c : Char} {taken : List Char} (hc : Scanner.isGap c = false)
    (h : readLexeme n c cs = ⟨.ok l, n', taken, ds⟩) : Emits n (c :: cs) [l] n' ds := by
  intro pos
  have hl : l.kind ≠ .eof := (readsAs_of_readLexeme (congrArg Reading.result h)).kind_ne
  exact ⟨_, .cons (Scanner.next_of_readLexeme hc h pos) hl (.refl _)⟩

theorem opening (n : Nesting) (b : Bracket) (cs : List Char) :
    Emits n (b.opener :: cs) [.opening b.opener (n.get b)] (n.inside b) cs := by
  cases b <;> exact of_readLexeme rfl rfl

theorem closing (n : Nesting) (b : Bracket) (cs : List Char) :
    Emits (n.inside b) (b.closer :: cs) [.closing b.closer (n.get b)] n cs := by
  cases b <;> exact of_readLexeme rfl rfl

theorem enclosed {b : Bracket} (h : Emits (n.inside b) cs w (n.inside b) (b.closer :: ds)) :
    Emits n (b.opener :: cs) (.opening b.opener (n.get b) :: w ++ [.closing b.closer (n.get b)])
      n ds :=
  ((opening n b cs).cons h).trans (closing n b ds)

theorem eol (n : Nesting) (cs : List Char) : Emits n ('\n' :: cs) [.plain .eol ['\n']] n cs :=
  of_readLexeme rfl rfl

theorem operator {s : String} (n : Nesting) (cs : List Char)
    (hs : s = "=" ∨ ∃ k ∈ OpKind.binary, s = k.symbol) :
    Emits n (s.toList ++ ' ' :: cs) [.plain .operator s.toList] n (' ' :: cs) := by
  rcases hs with rfl | ⟨k, hk, rfl⟩
  · exact of_readLexeme rfl rfl
  · simp only [OpKind.binary, List.mem_cons, List.not_mem_nil, or_false] at hk
    rcases hk with rfl | rfl | rfl | rfl | rfl | rfl | rfl | rfl | rfl | rfl | rfl | rfl <;>
      exact of_readLexeme rfl rfl

theorem sign {s : String} {k : OpKind} {c : Char} (n : Nesting) (cs : List Char)
    (hs : (s, k) ∈ Grammar.signs) (hc : c ∉ ['=', '+', '-']) :
    Emits n (s.toList ++ c :: cs) [.plain .operator s.toList] n (c :: cs) := by
  have single {a : Char} (ha : a = '+' ∨ a = '-') :
      Emits n (a :: c :: cs) [.plain .operator [a]] n (c :: cs) := by
    have hgap : Scanner.isGap a = false := by rcases ha with rfl | rfl <;> rfl
    have hmerge : ¬ compoundOperators.contains (a, c) := by
      rcases ha with rfl | rfl <;> simp_all [compoundOperators]
    have hread : readLexeme n a (c :: cs) = ⟨.ok (.plain .operator [a]), n, [a], c :: cs⟩ := by
      rcases ha with rfl | rfl <;> exact if_neg hmerge
    exact of_readLexeme hgap hread
  simp only [Grammar.signs, List.mem_cons, List.not_mem_nil, or_false, Prod.mk.injEq] at hs
  rcases hs with ⟨rfl, -⟩ | ⟨rfl, -⟩
  · exact single (.inl rfl)
  · exact single (.inr rfl)

end Emits

theorem isNameChar_of_isDigit {c : Char} (h : c.isDigit) : isNameChar c := by
  simp [isNameChar, Char.isAlphanum, h]

theorem isNameChar_of_isAlpha {c : Char} (h : c.isAlpha ∨ c = '_') : isNameChar c := by
  rcases h with h | rfl
  · simp [isNameChar, Char.isAlphanum, h]
  · rfl

theorem isGap_of_isNameChar {c : Char} (h : isNameChar c) : Scanner.isGap c = false := by
  have hrange : 0x30 ≤ c.toNat ∧ c.toNat < 0x7F := by
    simp only [isNameChar, Char.isAlphanum, Char.isAlpha, Char.isUpper, Char.isLower, Char.isDigit,
      Bool.or_eq_true, Bool.and_eq_true, decide_eq_true_eq, UInt32.le_iff_toNat_le, ge_iff_le,
      Char.toNat_val, Char.reduceToNat] at h
    rcases h with ((h | h) | h) | rfl
    · omega
    · omega
    · omega
    · decide
  have hblank : Text.isBlank c = false := by
    simp only [Text.isBlank, Bool.or_eq_false_iff, Bool.and_eq_false_iff, decide_eq_false_iff_not,
      beq_eq_false_iff_ne]
    omega
  simp [Scanner.isGap, hblank]

def breaks : List Char := ['(', ')', '[', ']', ' ', '\n']

/-- Some source ends, or goes on with a character that is no part of a name or a numeral. -/
inductive Breaks : List Char → Prop where
  | nil : Breaks []
  | cons {c : Char} {cs : List Char} : c ∈ breaks → Breaks (c :: cs)
  | gap {c : Char} {cs : List Char} : Scanner.isGap c → Breaks (c :: cs)

theorem Breaks.head {c : Char} {cs : List Char} (h : Breaks (c :: cs)) :
    isNameChar c = false ∧ c ≠ '.' := by
  cases h with
  | cons hc =>
    have hnot : ∀ c ∈ breaks, isNameChar c = false ∧ c ≠ '.' := by simp [breaks, isNameChar]
    exact hnot c hc
  | gap hc =>
    constructor
    · rw [Bool.eq_false_iff]
      intro hname
      rw [isGap_of_isNameChar hname] at hc
      cases hc
    · rintro rfl
      cases hc

theorem Breaks.numeralTail {cs : List Char} (h : Breaks cs) (point digit : Bool) :
    numeralTail point digit cs = { raw := [], valid := true, point, taken := [], rest := cs } := by
  cases cs with
  | nil => rfl
  | cons c cs =>
    obtain ⟨hname, hpoint⟩ := h.head
    have hdigit : ¬ c.isDigit := fun hc => absurd (isNameChar_of_isDigit hc) (by simp [hname])
    have halpha : ¬ (c.isAlpha ∨ c = '_') := fun hc =>
      absurd (isNameChar_of_isAlpha hc) (by simp [hname])
    obtain ⟨halpha, hline⟩ := not_or.1 halpha
    rw [Reckon.numeralTail, if_neg hdigit, if_neg hline, if_neg (fun h => hpoint h.1),
      if_neg (not_or.2 ⟨hpoint, halpha⟩)]

theorem numeralTail_digits {ds cs : List Char} {point : Bool} {tail : Tail} (hds : AllDigits ds)
    (h : ∀ digit, numeralTail point digit cs = tail) (digit : Bool) :
    numeralTail point digit (ds ++ cs) =
      { tail with raw := ds ++ tail.raw, taken := ds ++ tail.taken } := by
  -- Only an underscore asks whether a digit stands before it, so `h` holds for both answers.
  induction ds generalizing digit with
  | nil => exact h digit
  | cons d ds ih =>
    obtain ⟨hd, hds⟩ := List.forall_mem_cons.1 hds
    rw [List.cons_append, numeralTail, if_pos hd, ih hds]
    rfl

theorem numeralTail_point (cs : List Char) (digit : Bool) :
    numeralTail false digit ('.' :: cs) = (numeralTail true false cs).keep '.' := rfl

theorem Breaks.takeWhile {name cs : List Char} (h : Breaks cs) (hname : ∀ c ∈ name, isNameChar c) :
    (name ++ cs).takeWhile isNameChar = name ∧ (name ++ cs).dropWhile isNameChar = cs := by
  rw [List.takeWhile_append_of_pos hname, List.dropWhile_append_of_pos hname]
  cases cs with
  | nil => exact ⟨List.append_nil name, rfl⟩
  | cons c cs =>
    obtain ⟨hstop, -⟩ := h.head
    rw [List.takeWhile_cons_of_neg (by simp [hstop]), List.dropWhile_cons_of_neg (by simp [hstop]),
      List.append_nil]
    exact ⟨rfl, rfl⟩

theorem ne_of_isNameChar {c a : Char} (h : isNameChar c) (ha : isNameChar a = false) : c ≠ a := by
  rintro rfl
  rw [h] at ha
  cases ha

theorem ofBracket?_of_isNameChar {c : Char} (h : isNameChar c) :
    Bracket.ofOpener? c = none ∧ Bracket.ofCloser? c = none := by
  rw [Bracket.ofOpener?, Bracket.ofCloser?]
  constructor
  · rw [if_neg (ne_of_isNameChar h rfl), if_neg (ne_of_isNameChar h rfl),
      if_neg (ne_of_isNameChar h rfl)]
  · rw [if_neg (ne_of_isNameChar h rfl), if_neg (ne_of_isNameChar h rfl),
      if_neg (ne_of_isNameChar h rfl)]

theorem not_isDigit_of_isAlpha {c : Char} (h : c.isAlpha ∨ c = '_') : ¬ c.isDigit := by
  rcases h with h | rfl
  · simp only [Char.isAlpha, Char.isUpper, Char.isLower, Char.isDigit, Bool.or_eq_true,
      Bool.and_eq_true, decide_eq_true_eq, UInt32.le_iff_toNat_le, ge_iff_le, Char.toNat_val,
      Char.reduceToNat] at h ⊢
    omega
  · decide

theorem readLexeme_digit {c : Char} (h : c.isDigit) (n : Nesting) (cs : List Char) :
    readLexeme n c cs =
      let tail := numeralTail false true cs
      let raw := c :: tail.raw
      ⟨if tail.valid then .ok (.numeral raw tail.point) else .error (.invalidNumber (.ofChars raw)),
        n, c :: tail.taken, tail.rest⟩ := by
  obtain ⟨ho, hc⟩ := ofBracket?_of_isNameChar (isNameChar_of_isDigit h)
  unfold readLexeme
  rw [ho, hc]
  simp [h, isDigit_ne h (a := '.')]

theorem readLexeme_numeral {c : Char} (h : c.isDigit ∨ c = '.') (n : Nesting) (cs : List Char) :
    readLexeme n c cs =
      let tail := numeralTail (c = '.') c.isDigit cs
      let raw := c :: tail.raw
      ⟨if tail.valid then .ok (.numeral raw tail.point) else .error (.invalidNumber (.ofChars raw)),
        n, c :: tail.taken, tail.rest⟩ := by
  rcases h with h | rfl
  · rw [readLexeme_digit h, h, decide_eq_false (isDigit_ne h (a := '.') (by decide))]
  · rfl

theorem readLexeme_letter {c : Char} (h : c.isAlpha ∨ c = '_') (n : Nesting) (cs : List Char) :
    readLexeme n c cs =
      let name := c :: cs.takeWhile isNameChar
      ⟨.ok (.plain (if keywords.contains (String.ofList name) then .keyword else .identifier) name),
        n, name, cs.dropWhile isNameChar⟩ := by
  have hname := isNameChar_of_isAlpha h
  have hop : ¬ operatorStarts.contains c := by
    intro hmem
    have hplain : ∀ a ∈ operatorStarts, isNameChar a = false := by
      simp [operatorStarts, isNameChar]
    exact ne_of_isNameChar hname (hplain c (List.contains_iff_mem.1 hmem)) rfl
  have hne {a : Char} (ha : isNameChar a = false) : c ≠ a := ne_of_isNameChar hname ha
  obtain ⟨ho, hc⟩ := ofBracket?_of_isNameChar hname
  unfold readLexeme
  rw [ho, hc]
  dsimp only
  rw [if_neg (not_or.2 ⟨not_isDigit_of_isAlpha h, hne rfl⟩), if_neg (not_or.2 ⟨hne rfl, hne rfl⟩),
    if_neg hop, if_neg (not_or.2 ⟨hne rfl, hne rfl⟩), if_neg (hne rfl), if_neg (hne rfl), if_pos h]

namespace Emits

variable {n : Nesting} {cs : List Char} {c : Char}

theorem word {name : List Char} (hc : c.isAlpha ∨ c = '_') (hname : ∀ d ∈ name, isNameChar d)
    (hcs : Breaks cs) :
    Emits n (c :: name ++ cs)
      [.plain (if keywords.contains (String.ofList (c :: name)) then .keyword else .identifier)
        (c :: name)] n cs := by
  obtain ⟨htake, hdrop⟩ := hcs.takeWhile hname
  have hread := readLexeme_letter hc n (name ++ cs)
  rw [htake, hdrop] at hread
  exact of_readLexeme (isGap_of_isNameChar (isNameChar_of_isAlpha hc)) hread

theorem name {s : String} (hs : IsIdentifier s) (hcs : Breaks cs) :
    Emits n (s.toList ++ cs) [.plain .identifier s.toList] n cs := by
  obtain ⟨c, name, rfl, hc, hname, hkeyword⟩ := hs
  have h := word (n := n) hc hname hcs
  rw [if_neg hkeyword] at h
  rwa [String.toList_ofList]

theorem keyword {s : String} (hs : s ∈ keywords) (hcs : Breaks cs) :
    Emits n (s.toList ++ cs) [.plain .keyword s.toList] n cs := by
  have hletters : ∃ c name, s = String.ofList (c :: name) ∧ (c.isAlpha ∨ c = '_') ∧
      ∀ d ∈ name, isNameChar d := by
    simp only [keywords, List.mem_cons, List.not_mem_nil, or_false] at hs
    rcases hs with rfl | rfl | rfl | rfl | rfl | rfl | rfl | rfl | rfl <;>
      exact ⟨_, _, rfl, by decide, by simp [isNameChar]⟩
  obtain ⟨c, name, rfl, hc, hname⟩ := hletters
  have h := word (n := n) hc hname hcs
  rw [if_pos (List.contains_iff_mem.2 hs)] at h
  rwa [String.toList_ofList]

theorem digits {ds : List Char} (hc : c.isDigit) (hds : AllDigits ds) (hcs : Breaks cs) :
    Emits n (c :: ds ++ cs) [.numeral (c :: ds) false] n cs := by
  have htail := numeralTail_digits hds (hcs.numeralTail false) true
  have hread := readLexeme_digit hc n (ds ++ cs)
  rw [htail] at hread
  simp only [List.append_nil, if_true] at hread
  exact of_readLexeme (isGap_of_isNameChar (isNameChar_of_isDigit hc)) hread

theorem point {ds es : List Char} (hc : c.isDigit) (hds : AllDigits ds) (hes : AllDigits es)
    (hcs : Breaks cs) :
    Emits n (c :: ds ++ '.' :: es ++ cs) [.numeral (c :: ds ++ '.' :: es) true] n cs := by
  have hback := numeralTail_digits hes (hcs.numeralTail true) false
  have htail := numeralTail_digits hds (numeralTail_point (es ++ cs)) true
  have hread := readLexeme_digit hc n (ds ++ '.' :: (es ++ cs))
  rw [htail, hback] at hread
  simp only [Tail.keep, List.append_nil, if_true] at hread
  have h := of_readLexeme (isGap_of_isNameChar (isNameChar_of_isDigit hc)) hread
  simpa using h

end Emits

def escapeQuote (c : Char) : List Char := if c = '"' then ['\\', '"'] else [c]

theorem stringTail_escaped {s : List Char} (hs : '\\' ∉ s) (cs : List Char) :
    stringTail '"' false (s.flatMap escapeQuote ++ '"' :: cs) =
      { raw := s, valid := true, taken := s.flatMap escapeQuote ++ ['"'], rest := cs } := by
  induction s with
  | nil => rfl
  | cons c s ih =>
    obtain ⟨hc, hrest⟩ := not_or.1 (List.mem_cons.not.1 hs)
    rw [List.flatMap_cons, List.append_assoc]
    by_cases hq : c = '"'
    · -- The backslash in front of the quote is dropped, and the quote does not end the string.
      subst hq
      exact congrArg (fun t => (t.keep '"').drop '\\') (ih hrest)
    · rw [escapeQuote, if_neg hq, List.singleton_append, stringTail, if_neg (fun h => hq h.2),
        if_neg hq, if_neg (Ne.symm hc), ih hrest]
      rfl

theorem flatMap_escapeChar {s : List Char} (hs : ∀ c ∈ s, Text.isPrintable c) (hs' : '\\' ∉ s) :
    s.flatMap (escapeChar '"') = s.flatMap escapeQuote := by
  apply List.flatMap_congr
  intro c hc
  by_cases hq : c = '"'
  · rw [hq]
    rfl
  · have hb : c ≠ '\\' := fun h => hs' (h ▸ hc)
    rw [escapeChar, if_neg (not_or.2 ⟨hq, hb⟩), if_pos (hs c hc), escapeQuote, if_neg hq]

theorem readLexeme_escaped {s : List Char} (hs : '\\' ∉ s) (n : Nesting) (cs : List Char) :
    readLexeme n '"' (s.flatMap escapeQuote ++ '"' :: cs) =
      ⟨.ok (.plain .string s), n, '"' :: s.flatMap escapeQuote ++ ['"'], cs⟩ := by
  simp only [readLexeme, stringTail_escaped hs cs]
  rfl

theorem Emits.quote {n : Nesting} {s : List Char} (hs : ∀ c ∈ s, Text.isPrintable c)
    (hs' : '\\' ∉ s) (cs : List Char) :
    Emits n ((Text.ofChars s).quote.toList ++ cs) [.plain .string s] n cs := by
  have htext : (Text.ofChars s).quote.toList ++ cs =
      '"' :: (s.flatMap (escapeChar '"') ++ '"' :: cs) := by
    simp [Text.quote, Text.ofChars, List.flatMap_map, Piece.escape]
  rw [htext, flatMap_escapeChar hs hs']
  exact of_readLexeme rfl (readLexeme_escaped hs' n cs)

theorem Scanner.Reaches.run {s s' : Scanner} {w : List Lexeme} {ts : List Token}
    (h : s.Reaches w s') (hs : s'.run = (ts, none)) :
    ∃ us, s.run = (us ++ ts, none) ∧ us.map (·.toLexeme) = w := by
  induction h with
  | refl => exact ⟨[], hs, rfl⟩
  | @cons _ _ _ t _ hn ht _ ih =>
    obtain ⟨us, hus, hmap⟩ := ih hs
    exact ⟨t :: us, run_cons hn ht hus, by rw [List.map_cons, hmap]⟩

theorem Emits.lexes_of_gap {source ds : List Char} {w : List Lexeme} {n : Nesting}
    (h : Emits {} source w n ds) (hds : ∀ c ∈ ds, Scanner.isGap c) :
    Grammar.Lexes source (w ++ [.eof]) := by
  obtain ⟨pos, hr⟩ := h .start
  have hnext : Scanner.next ⟨ds, pos, n⟩ =
      (.ok { Lexeme.eof with pos := pos.advance (ds.takeWhile Scanner.isGap) },
        ⟨[], pos.advance (ds.takeWhile Scanner.isGap), n⟩) := by
    simp only [Scanner.next, Scanner.skipGap, List.dropWhile_eq_nil_iff.2 hds]
  obtain ⟨us, hrun, rfl⟩ := hr.run (Scanner.run_eof hnext rfl)
  exact ⟨_, hrun, List.map_append⟩

theorem Emits.lexes {source : List Char} {w : List Lexeme} {n : Nesting}
    (h : Emits {} source w n []) : Grammar.Lexes source (w ++ [.eof]) :=
  h.lexes_of_gap (List.forall_mem_nil _)

end Reckon
