import Reckon.Proofs.Lookahead
import Reckon.Proofs.Relexing

namespace Reckon

/-- The character at an index ends a string that `quote` began; `before` stands in front of the
characters. -/
def EndsString (quote before : Char) (cs : List Char) (i : Nat) : Prop :=
  cs[i]? = some quote ∧ (quote = '"' → (before :: cs)[i]? ≠ some '\\')

instance (quote before : Char) (cs : List Char) (i : Nat) :
    Decidable (EndsString quote before cs i) := inferInstanceAs (Decidable (_ ∧ _))

section Tail

variable {quote before c : Char} {cs : List Char} {i : Nat}

theorem endsString_zero :
    EndsString quote before (c :: cs) 0 ↔ c = quote ∧ (quote = '"' → before ≠ '\\') := by
  simp [EndsString]

theorem endsString_succ :
    EndsString quote before (c :: cs) (i + 1) ↔ EndsString quote c cs i := Iff.rfl

variable (hq : quote = '"' ∨ quote = apostrophe)
include hq

theorem stringTail_cons (h : ¬ EndsString quote before (c :: cs) 0) :
    stringTail quote (before = '\\') (c :: cs) =
      if c = '\\' then (stringTail quote (c = '\\') cs).drop c
      else (stringTail quote (c = '\\') cs).keep c := by
  rw [endsString_zero] at h
  rw [stringTail]
  by_cases hb : c = '\\'
  · subst hb
    have hne : '\\' ≠ quote := by
      rcases hq with rfl | rfl <;> decide
    simp [hne]
  · by_cases he : before = '\\' ∧ c = '"'
    · simp [he]
    · have hne : c ≠ quote := by
        rintro rfl
        exact h ⟨rfl, fun hc hbefore => he ⟨hbefore, hc⟩⟩
      simp [he, hb, hne]

/-- Up to the first place that ends it a string is read, and no further. -/
theorem stringTail_of_ends (hend : EndsString quote before cs i)
    (hfirst : ∀ j < i, ¬ EndsString quote before cs j) :
    stringTail quote (before = '\\') cs =
      { raw := (cs.take i).filter (· ≠ '\\'), valid := true, taken := cs.take i ++ [quote],
        rest := cs.drop (i + 1) } := by
  -- The reader remembers of the character before only whether it was a backslash.
  induction cs generalizing before i with
  | nil => cases hend.1
  | cons c cs ih =>
    cases i with
    | zero =>
      obtain ⟨rfl, hbefore⟩ := endsString_zero.1 hend
      have hescaped : ¬ (before = '\\' ∧ c = '"') := fun h => hbefore h.2 h.1
      simp [stringTail, hescaped]
    | succ i =>
      have hrest := ih (endsString_succ.1 hend) fun j hj =>
        hfirst (j + 1) (Nat.succ_lt_succ hj)
      rw [stringTail_cons hq (hfirst 0 (Nat.succ_pos i)), hrest]
      by_cases hb : c = '\\' <;> simp [hb, Tail.keep, Tail.drop]

theorem stringTail_of_not_ends (h : ∀ i, ¬ EndsString quote before cs i) :
    stringTail quote (before = '\\') cs =
      { raw := cs.filter (· ≠ '\\'), valid := false, taken := cs, rest := [] } := by
  induction cs generalizing before with
  | nil => rfl
  | cons c cs ih =>
    have hrest := ih fun i => mt endsString_succ.2 (h (i + 1))
    rw [stringTail_cons hq (h 0), hrest]
    by_cases hb : c = '\\' <;> simp [hb, Tail.keep, Tail.drop]

theorem readLexeme_quote (n : Nesting) (cs : List Char) :
    readLexeme n quote cs =
      let tail := stringTail quote (quote = '\\') cs
      ⟨if tail.valid then .ok (.plain .string tail.raw) else .error .unterminatedString,
        n, quote :: tail.taken, tail.rest⟩ := by
  rcases hq with rfl | rfl <;> rfl

theorem isGap_quote : Scanner.isGap quote = false := by
  rcases hq with rfl | rfl <;> rfl

end Tail

namespace Lexer

section Next

variable {gap cs : List Char} {quote : Char} (hgap : ∀ d ∈ gap, Scanner.isGap d)
  (hq : quote = '"' ∨ quote = apostrophe) (pos : Position) (n : Nesting)
include hgap hq

theorem next_of_ends {i : Nat} (hend : EndsString quote quote cs i)
    (hfirst : ∀ j < i, ¬ EndsString quote quote cs j) :
    next { scanner := ⟨gap ++ quote :: cs, pos, n⟩ } =
      (.ok { Lexeme.plain .string ((cs.take i).filter (· ≠ '\\')) with pos := pos.advance gap },
        { scanner := ⟨cs.drop (i + 1), (pos.advance gap).advance (quote :: cs.take i ++ [quote]),
            n⟩ }) := by
  have hread := readLexeme_quote hq n cs
  rw [stringTail_of_ends hq hend hfirst] at hread
  have hnext := Scanner.next_of_readLexeme (isGap_quote hq) hread (pos.advance gap)
  rw [next, Scanner.next_gap hgap, hnext]
  rfl

theorem next_of_not_ends (h : ∀ i, ¬ EndsString quote quote cs i) :
    next { scanner := ⟨gap ++ quote :: cs, pos, n⟩ } =
      (.error ⟨.unterminatedString, pos.advance gap⟩,
        { scanner := ⟨[], (pos.advance gap).advance (quote :: cs), n⟩ }) := by
  have hread := readLexeme_quote hq n cs
  rw [stringTail_of_not_ends hq h] at hread
  have hnext := Scanner.next_of_readLexeme_error (isGap_quote hq) hread (pos.advance gap)
  rw [next, Scanner.next_gap hgap, hnext]

end Next

theorem backslash_not_mem_of_next (s : Scanner) {t : Token} (h : s.next.1 = .ok t)
    (hk : t.kind = .string) : .char '\\' ∉ t.raw := by
  obtain ⟨cs, hraw, hcs⟩ := (Scanner.next_spelled (Prod.ext h rfl)).string hk
  rw [hraw]
  intro hmem
  obtain ⟨c, hc, heq⟩ := List.mem_map.1 hmem
  cases heq
  exact hcs hc

/-- At a quote the lexer takes the quote, what stands before the first place that ends the string,
and the quote there, and drops every backslash; if no place ends the string it fails at the quote
and takes all that is left. So no string that is ever returned has a backslash. -/
theorem string_up_to_first_end :
    (∀ (gap cs : List Char) (quote : Char) (pos : Position) (n : Nesting),
      (∀ d ∈ gap, Scanner.isGap d) → (quote = '"' ∨ quote = apostrophe) →
      let l : Lexer := { scanner := ⟨gap ++ quote :: cs, pos, n⟩ }
      let start := pos.advance gap
      (∀ i, EndsString quote quote cs i → (∀ j < i, ¬ EndsString quote quote cs j) →
        let body := cs.take i
        l.next = (.ok { Lexeme.plain .string (body.filter (· ≠ '\\')) with pos := start },
          { scanner := ⟨cs.drop (i + 1), start.advance (quote :: body ++ [quote]), n⟩ })) ∧
      ((∀ i, ¬ EndsString quote quote cs i) →
        l.next = (.error ⟨.unterminatedString, start⟩,
          { scanner := ⟨[], start.advance (quote :: cs), n⟩ }))) ∧
    ∀ (source : List Char) (calls : List Call), ∀ a ∈ (ofSource source).answers calls, ∀ t,
      a.2 = .ok t → t.kind = .string → .char '\\' ∉ t.raw := by
  constructor
  · intro gap cs quote pos n hgap hq l start
    constructor
    · intro i hend hfirst
      exact next_of_ends hgap hq pos n hend hfirst
    · intro h
      exact next_of_not_ends hgap hq pos n h
  · intro source calls
    let P (r : Lexed) : Prop := ∀ t, r = .ok t → t.kind = .string → .char '\\' ∉ t.raw
    have hread (s : Scanner) (_ : True) : P s.next.1 ∧ True :=
      ⟨fun _ => backslash_not_mem_of_next s, trivial⟩
    have hstart : (ofSource source).Keeps (fun _ => True) P :=
      ⟨trivial, fun _ hr => absurd hr (Option.not_mem_none _)⟩
    exact (hstart.calls hread calls).1

/-- A double quote behind two backslashes does not end a string, a single quote behind one does, and
a string of one escaped quote has no end. -/
theorem string_up_to_first_end_escaped :
    next { scanner := { rest := ' ' :: '"' :: ['a', '\\', '\\', '"', 'b', '"', 'c'] } } =
      (.ok { Lexeme.plain .string ['a', '"', 'b'] with pos := ⟨1, 2, 1⟩ },
        { scanner := { rest := ['c'], pos := ⟨1, 9, 8⟩ } }) ∧
    next { scanner := { rest := apostrophe :: ['\\', apostrophe, 'b'] } } =
      (.ok { Lexeme.plain .string [] with pos := ⟨1, 1, 0⟩ },
        { scanner := { rest := ['b'], pos := ⟨1, 4, 3⟩ } }) ∧
    next { scanner := { rest := '"' :: ['\n', '\\', '"'] } } =
      (.error ⟨.unterminatedString, ⟨1, 1, 0⟩⟩,
        { scanner := { rest := [], pos := ⟨2, 3, 4⟩ } }) := by
  have hdouble := (string_up_to_first_end.1 [' '] ['a', '\\', '\\', '"', 'b', '"', 'c'] '"' .start
    {} (List.forall_mem_singleton.2 rfl) (.inl rfl)).1 5 (by decide) (by decide)
  have hsingle := (string_up_to_first_end.1 [] ['\\', apostrophe, 'b'] apostrophe .start {}
    (List.forall_mem_nil _) (.inr rfl)).1 1 (by decide) (by decide)
  have hinside : ∀ i < 3, ¬ EndsString '"' '"' ['\n', '\\', '"'] i := by decide
  have hnone (i : Nat) : ¬ EndsString '"' '"' ['\n', '\\', '"'] i := by
    intro h
    exact hinside i (List.getElem?_eq_some_iff.1 h.1).1 h
  have hopen := (string_up_to_first_end.1 [] ['\n', '\\', '"'] '"' .start {}
    (List.forall_mem_nil _) (.inl rfl)).2 hnone
  exact ⟨hdouble, hsingle, hopen⟩

end Lexer

end Reckon
