import Reckon.Proofs.Framing
import Reckon.Proofs.Relexing

namespace Reckon

theorem takeWhile_frame (p : Char → Bool) (cs : List Char) {ds : List Char}
    (h : ds.head? = (cs.dropWhile p).head?) :
    (cs.takeWhile p ++ ds).takeWhile p = cs.takeWhile p ∧
      (cs.takeWhile p ++ ds).dropWhile p = ds := by
  induction cs with
  | nil =>
    obtain rfl := List.head?_eq_none_iff.1 h
    exact ⟨rfl, rfl⟩
  | cons c cs ih =>
    cases hc : p c with
    | true =>
      rw [List.dropWhile_cons_of_pos hc] at h
      obtain ⟨htake, hdrop⟩ := ih h
      rw [List.takeWhile_cons_of_pos hc, List.cons_append, List.takeWhile_cons_of_pos hc,
        List.dropWhile_cons_of_pos hc, htake, hdrop]
      exact ⟨rfl, rfl⟩
    | false =>
      have hneg : ¬ p c := Bool.eq_false_iff.1 hc
      rw [List.dropWhile_cons_of_neg hneg] at h
      obtain ⟨ds, rfl⟩ := List.head?_eq_some_iff.1 h
      rw [List.takeWhile_cons_of_neg hneg, List.nil_append, List.takeWhile_cons_of_neg hneg,
        List.dropWhile_cons_of_neg hneg]
      exact ⟨rfl, rfl⟩

theorem name_frame (cs : List Char) {ds : List Char}
    (h : ds.head? = (cs.dropWhile isNameChar).head? ∨ Breaks ds) :
    (cs.takeWhile isNameChar ++ ds).takeWhile isNameChar = cs.takeWhile isNameChar ∧
      (cs.takeWhile isNameChar ++ ds).dropWhile isNameChar = ds := by
  rcases h with h | h
  · exact takeWhile_frame _ cs h
  · exact h.takeWhile fun d hd => List.mem_takeWhile_imp hd

theorem comment_frame (cs : List Char) {ds : List Char}
    (h : ds.head? = (cs.dropWhile (· ≠ '\n')).head? ∨ ∃ es, ds = '\n' :: es) :
    (cs.takeWhile (· ≠ '\n') ++ ds).takeWhile (· ≠ '\n') = cs.takeWhile (· ≠ '\n') ∧
      (cs.takeWhile (· ≠ '\n') ++ ds).dropWhile (· ≠ '\n') = ds := by
  rcases h with h | ⟨es, rfl⟩
  · exact takeWhile_frame _ cs h
  · have hline : ∀ c ∈ cs.takeWhile (· ≠ '\n'), decide (c ≠ '\n') = true :=
      fun c hc => List.mem_takeWhile_imp (p := (· ≠ '\n')) hc
    rw [List.takeWhile_append_of_pos hline, List.dropWhile_append_of_pos hline]
    exact ⟨List.append_nil _, rfl⟩

theorem numeralTail_frame {point digit : Bool} {cs ds : List Char}
    (hvalid : (numeralTail point digit cs).valid)
    (h : ds.head? = (numeralTail point digit cs).rest.head? ∨ Breaks ds) :
    numeralTail point digit ((numeralTail point digit cs).taken ++ ds) =
      { numeralTail point digit cs with rest := ds } := by
  induction cs generalizing point digit with
  | nil =>
    rcases h with h | h
    · obtain rfl := List.head?_eq_none_iff.1 h
      rfl
    · exact h.numeralTail point digit
  | cons c cs ih =>
    rw [numeralTail] at hvalid h ⊢
    by_cases hd : c.isDigit
    · rw [if_pos hd] at hvalid h ⊢
      rw [Tail.keep_taken, List.cons_append, numeralTail, if_pos hd, ih hvalid h]
      rfl
    rw [if_neg hd] at hvalid h ⊢
    by_cases hu : c = '_'
    · rw [if_pos hu] at hvalid h ⊢
      by_cases hs : (digit && startsWithDigit cs) = true
      · rw [if_pos hs] at hvalid h ⊢
        obtain ⟨hdigit, hstart⟩ := Bool.and_eq_true_iff.1 hs
        -- The digit behind the underscore is taken.
        have hstart' : startsWithDigit ((numeralTail point true cs).taken ++ ds) = true := by
          cases cs with
          | nil => cases hstart
          | cons d cs =>
            have hd' : d.isDigit := hstart
            rw [numeralTail, if_pos hd']
            exact hd'
        rw [Tail.drop_taken, List.cons_append, numeralTail, if_neg hd, if_pos hu, hdigit, hstart',
          ih hvalid h]
        rfl
      · rw [if_neg hs] at hvalid
        cases hvalid
    rw [if_neg hu] at hvalid h ⊢
    by_cases hp : c = '.' ∧ !point
    · rw [if_pos hp] at hvalid h ⊢
      rw [Tail.keep_taken, List.cons_append, numeralTail, if_neg hd, if_neg hu, if_pos hp,
        ih hvalid h]
      rfl
    rw [if_neg hp] at hvalid h ⊢
    by_cases ha : c = '.' ∨ c.isAlpha
    · rw [if_pos ha] at hvalid
      cases hvalid
    · rw [if_neg ha] at h ⊢
      rcases h with h | h
      · obtain ⟨ds, rfl⟩ := List.head?_eq_some_iff.1 h
        rw [List.nil_append, numeralTail, if_neg hd, if_neg hu, if_neg hp, if_neg ha]
      · exact h.numeralTail point digit

theorem stringTail_frame {delimiter : Char} {escaped : Bool} {cs : List Char}
    (hvalid : (stringTail delimiter escaped cs).valid) (ds : List Char) :
    stringTail delimiter escaped ((stringTail delimiter escaped cs).taken ++ ds) =
      { stringTail delimiter escaped cs with rest := ds } := by
  induction cs generalizing escaped with
  | nil => cases hvalid
  | cons c cs ih =>
    rw [stringTail] at hvalid ⊢
    by_cases hq : escaped ∧ c = '"'
    · rw [if_pos hq] at hvalid ⊢
      rw [Tail.keep_taken, List.cons_append, stringTail, if_pos hq, ih hvalid]
      rfl
    rw [if_neg hq] at hvalid ⊢
    by_cases hd : c = delimiter
    · rw [if_pos hd] at hvalid ⊢
      rw [List.singleton_append, stringTail, if_neg hq, if_pos hd]
    rw [if_neg hd] at hvalid ⊢
    by_cases hb : c = '\\'
    · rw [if_pos hb] at hvalid ⊢
      rw [Tail.drop_taken, List.cons_append, stringTail, if_neg hq, if_neg hd, if_pos hb, ih hvalid]
      rfl
    · rw [if_neg hb] at hvalid ⊢
      rw [Tail.keep_taken, List.cons_append, stringTail, if_neg hq, if_neg hd, if_neg hb, ih hvalid]
      rfl

def joining : List Char := ['=', '|', '&', '+', '-']

/-- A lexeme that was followed by some characters may as well be followed by others: by those that
begin alike, by a line break, behind all but a comment by white space, and behind an operand or an
operator by those that do not go on with it. -/
inductive MayFollow (l : Lexeme) (rest : List Char) : List Char → Prop where
  | alike {ds : List Char} : ds.head? = rest.head? → MayFollow l rest ds
  | newline (ds : List Char) : MayFollow l rest ('\n' :: ds)
  | gap {d : Char} {ds : List Char} :
    l.kind ≠ .comment → Scanner.isGap d → MayFollow l rest (d :: ds)
  | value {ds : List Char} : l.endsValue → Breaks ds → MayFollow l rest ds
  | operator {d : Char} {ds : List Char} :
    l.kind = .operator → d ∉ joining → MayFollow l rest (d :: ds)

namespace MayFollow

variable {l : Lexeme} {rest ds : List Char}

theorem breaks (h : MayFollow l rest ds) (hl : l.kind ≠ .operator) :
    ds.head? = rest.head? ∨ Breaks ds := by
  cases h with
  | alike h => exact .inl h
  | newline => exact .inr (.cons (by decide))
  | gap _ hd => exact .inr (.gap hd)
  | value _ h => exact .inr h
  | operator hk => exact absurd hk hl

theorem parts (h : MayFollow l rest ds) (hl : l.kind = .operator) :
    ds.head? = rest.head? ∨ ∃ d es, ds = d :: es ∧ d ∉ joining := by
  cases h with
  | alike h => exact .inl h
  | newline es => exact .inr ⟨_, es, rfl, by decide⟩
  | @gap d es _ hd =>
    have hplain : ∀ c ∈ joining, Scanner.isGap c = false := by
      simp [joining, Scanner.isGap, Text.isBlank]
    refine .inr ⟨d, es, rfl, fun hmem => ?_⟩
    rw [hplain d hmem] at hd
    cases hd
  | value hv => exact absurd hv (Grammar.not_endsValue_of_kind hl (.inl rfl))
  | @operator d es _ hd => exact .inr ⟨d, es, rfl, hd⟩

theorem ends (h : MayFollow l rest ds) (hl : l.kind = .comment) :
    ds.head? = rest.head? ∨ ∃ es, ds = '\n' :: es := by
  cases h with
  | alike h => exact .inl h
  | newline es => exact .inr ⟨es, rfl⟩
  | gap hk => exact absurd hl hk
  | value hv => exact absurd hv (Grammar.not_endsValue_of_kind hl (.inr (.inr rfl)))
  | operator hk => cases hk.symm.trans hl

end MayFollow

theorem plain_of_operatorStart {c : Char} (h : operatorStarts.contains c) :
    Bracket.ofOpener? c = none ∧ Bracket.ofCloser? c = none ∧ ¬ (c.isDigit ∨ c = '.') ∧
      ¬ (c = '"' ∨ c = apostrophe) := by
  have hplain : ∀ c ∈ operatorStarts, Bracket.ofOpener? c = none ∧ Bracket.ofCloser? c = none ∧
      ¬ (c.isDigit ∨ c = '.') ∧ ¬ (c = '"' ∨ c = apostrophe) := by
    simp [operatorStarts, Bracket.ofOpener?, Bracket.ofCloser?, apostrophe]
  exact hplain c (List.contains_iff_mem.1 h)

theorem readLexeme_start {c : Char} (h : operatorStarts.contains c) (n : Nesting) (d : Char)
    (cs : List Char) :
    readLexeme n c (d :: cs) =
      if compoundOperators.contains (c, d) then ⟨.ok (.plain .operator [c, d]), n, [c, d], cs⟩
      else ⟨.ok (.plain .operator [c]), n, [c], d :: cs⟩ := by
  obtain ⟨ho, hc, hnum, hstr⟩ := plain_of_operatorStart h
  unfold readLexeme
  rw [ho, hc]
  dsimp only
  rw [if_neg hnum, if_neg hstr, if_pos h]

theorem readLexeme_single {c : Char} (h : operatorStarts.contains c) (n : Nesting)
    {cs : List Char} (hcs : ∀ d ∈ cs.head?, ¬ compoundOperators.contains (c, d)) :
    readLexeme n c cs = ⟨.ok (.plain .operator [c]), n, [c], cs⟩ := by
  cases cs with
  | nil =>
    obtain ⟨ho, hc, hnum, hstr⟩ := plain_of_operatorStart h
    unfold readLexeme
    rw [ho, hc]
    dsimp only
    rw [if_neg hnum, if_neg hstr, if_pos h]
  | cons d ds => rw [readLexeme_start h, if_neg (hcs d rfl)]

theorem not_compound {c : Char} {cs : List Char} (h : ∃ d ds, cs = d :: ds ∧ d ∉ joining) :
    ∀ d ∈ cs.head?, ¬ compoundOperators.contains (c, d) := by
  have hjoin : ∀ p ∈ compoundOperators, p.2 ∈ joining := by decide
  obtain ⟨d, ds, rfl, hd⟩ := h
  rintro d ⟨⟩ hmem
  exact hd (hjoin (c, d) (List.contains_iff_mem.1 hmem))

theorem readLexeme_operator_frame {n n' : Nesting} {c : Char} {cs taken rest ds : List Char}
    {l : Lexeme} (hc : operatorStarts.contains c)
    (h : readLexeme n c cs = ⟨.ok l, n', taken, rest⟩) (hds : MayFollow l rest ds) :
    readLexeme n c (taken.tail ++ ds) = ⟨.ok l, n', taken, ds⟩ := by
  by_cases hcs : ∀ d ∈ cs.head?, ¬ compoundOperators.contains (c, d)
  · rw [readLexeme_single hc n hcs] at h
    cases h
    apply readLexeme_single hc n
    rcases hds.parts rfl with hhead | hds
    · rw [List.tail_cons, List.nil_append, hhead]
      exact hcs
    · exact not_compound hds
  · simp only [Classical.not_forall, Classical.not_not] at hcs
    obtain ⟨d, hd, hcomp⟩ := hcs
    obtain ⟨es, rfl⟩ := List.head?_eq_some_iff.1 hd
    rw [readLexeme_start hc, if_pos hcomp] at h
    cases h
    rw [List.tail_cons, List.singleton_append, readLexeme_start hc, if_pos hcomp]

theorem readLexeme_frame {n n' : Nesting} {c : Char} {cs taken rest ds : List Char} {l : Lexeme}
    (h : readLexeme n c cs = ⟨.ok l, n', taken, rest⟩) (hds : MayFollow l rest ds) :
    readLexeme n c (taken.tail ++ ds) = ⟨.ok l, n', taken, ds⟩ := by
  by_cases hop : operatorStarts.contains c
  · exact readLexeme_operator_frame hop h hds
  unfold readLexeme at h ⊢
  cases ho : Bracket.ofOpener? c with
  | some b =>
    simp only [ho] at h ⊢
    cases h
    rfl
  | none =>
  cases hc : Bracket.ofCloser? c with
  | some b =>
    simp only [ho, hc] at h ⊢
    cases hdepth : n.get b with
    | zero =>
      rw [hdepth] at h
      cases h
    | succ depth =>
      rw [hdepth] at h
      cases h
      rfl
  | none =>
  simp only [ho, hc] at h ⊢
  by_cases hnum : c.isDigit ∨ c = '.'
  · simp only [if_pos hnum] at h ⊢
    by_cases hvalid : (numeralTail (decide (c = '.')) c.isDigit cs).valid
    · rw [if_pos hvalid] at h
      cases h
      have hbreaks := hds.breaks (by intro hk; cases hk)
      rw [List.tail_cons, numeralTail_frame hvalid hbreaks, if_pos hvalid]
    · rw [if_neg hvalid] at h
      cases h
  simp only [if_neg hnum] at h ⊢
  by_cases hstr : c = '"' ∨ c = apostrophe
  · simp only [if_pos hstr] at h ⊢
    by_cases hvalid : (stringTail c false cs).valid
    · rw [if_pos hvalid] at h
      cases h
      rw [List.tail_cons, stringTail_frame hvalid, if_pos hvalid]
    · rw [if_neg hvalid] at h
      cases h
  simp only [if_neg hstr, if_neg hop] at h ⊢
  by_cases hsep : c = ',' ∨ c = ';'
  · simp only [if_pos hsep] at h ⊢
    cases h
    rfl
  simp only [if_neg hsep] at h ⊢
  by_cases hcom : c = '#'
  · simp only [if_pos hcom] at h ⊢
    cases h
    obtain ⟨htake, hdrop⟩ := comment_frame cs (hds.ends rfl)
    rw [List.tail_cons, htake, hdrop]
  simp only [if_neg hcom] at h ⊢
  by_cases hend : c = '\n'
  · simp only [if_pos hend] at h ⊢
    cases h
    rfl
  simp only [if_neg hend] at h ⊢
  by_cases hname : c.isAlpha ∨ c = '_'
  · simp only [if_pos hname] at h ⊢
    cases h
    have hkind : (if keywords.contains (String.ofList (c :: cs.takeWhile isNameChar))
        then TokenKind.keyword else .identifier) ≠ .operator := by
      split <;> decide
    obtain ⟨htake, hdrop⟩ := name_frame cs (hds.breaks hkind)
    rw [List.tail_cons, htake, hdrop]
  · simp only [if_neg hname] at h
    cases h

def Nesting.raise (n : Nesting) (k : Nat) : Nesting := n.set .round (n.get .round + k)

theorem Nesting.get_raise (n : Nesting) (k : Nat) (b : Bracket) :
    (n.raise k).get b = n.get b + if b = .round then k else 0 := by
  cases b <;> rfl

theorem Nesting.set_raise (n : Nesting) (k count : Nat) (b : Bracket) :
    (n.set b count).raise k = (n.raise k).set b (count + if b = .round then k else 0) := by
  cases b <;> rfl

theorem readLexeme_nesting {c : Char} (ho : Bracket.ofOpener? c = none)
    (hc : Bracket.ofCloser? c = none) (n n' : Nesting) (cs : List Char) :
    (readLexeme n c cs).nesting = n ∧
      readLexeme n' c cs = { readLexeme n c cs with nesting := n' } := by
  unfold readLexeme
  simp only [ho, hc]
  repeat' split
  all_goals exact ⟨rfl, rfl⟩

/-- Round brackets that are open around a lexeme change no more than its depth. -/
theorem readLexeme_raise {n n' : Nesting} {c : Char} {cs taken rest : List Char} {l : Lexeme}
    (h : readLexeme n c cs = ⟨.ok l, n', taken, rest⟩) (k : Nat) :
    ∃ l', l'.unnested = l.unnested ∧
      readLexeme (n.raise k) c cs = ⟨.ok l', n'.raise k, taken, rest⟩ := by
  cases ho : Bracket.ofOpener? c with
  | some b =>
    unfold readLexeme at h ⊢
    simp only [ho] at h ⊢
    cases h
    refine ⟨.opening c ((n.raise k).get b), rfl, ?_⟩
    rw [Nesting.set_raise, Nesting.get_raise, Nat.add_right_comm]
  | none =>
  cases hc : Bracket.ofCloser? c with
  | some b =>
    unfold readLexeme at h ⊢
    simp only [ho, hc] at h ⊢
    cases hdepth : n.get b with
    | zero =>
      rw [hdepth] at h
      cases h
    | succ depth =>
      rw [hdepth] at h
      cases h
      refine ⟨.closing c ((depth + if b = .round then k else 0 : Nat) : Int), rfl, ?_⟩
      rw [Nesting.set_raise, Nesting.get_raise, hdepth, Nat.add_right_comm]
  | none =>
    obtain ⟨hn, hraise⟩ := readLexeme_nesting ho hc n (n.raise k) cs
    rw [h] at hn hraise
    obtain rfl : n' = n := hn
    exact ⟨l, rfl, hraise⟩

theorem readLexeme_operator_length {n n' : Nesting} {c : Char} {cs taken rest : List Char}
    {l : Lexeme} (h : readLexeme n c cs = ⟨.ok l, n', taken, rest⟩) (hl : l.kind = .operator) :
    l.raw.length = taken.length := by
  have hsplit := readLexeme_taken_append_rest n c cs
  have hreads := readsAs_of_readLexeme (congrArg Reading.result h)
  rw [h] at hsplit hreads
  cases hreads with
  | @compound d _ hcs _ =>
    rw [hcs] at hsplit
    obtain rfl : taken = [c, d] := List.append_cancel_right hsplit
    rfl
  | operator _ =>
    obtain rfl : taken = [c] := List.append_cancel_right hsplit
    rfl
  | _ => cases hl

def bare (ts : List Token) : List Lexeme := ts.map (·.toLexeme.unnested)

theorem map_unnested (ts : List Token) :
    (ts.map (·.toLexeme)).map Lexeme.unnested = bare ts := List.map_map

/-- The characters `cs` are read up to `ds` as lexemes that are `w` without their depths. -/
def EmitsBare (n : Nesting) (cs : List Char) (w : List Lexeme) (n' : Nesting) (ds : List Char) :
    Prop :=
  ∃ v, v.map Lexeme.unnested = w ∧ Emits n cs v n' ds

namespace EmitsBare

variable {n n' n'' : Nesting} {cs ds es : List Char} {v w : List Lexeme}

theorem trans (h : EmitsBare n cs v n' ds) (h' : EmitsBare n' ds w n'' es) :
    EmitsBare n cs (v ++ w) n'' es := by
  obtain ⟨v, rfl, hemits⟩ := h
  obtain ⟨w, rfl, hemits'⟩ := h'
  exact ⟨v ++ w, List.map_append, hemits.trans hemits'⟩

theorem lexes (h : EmitsBare {} cs w n ds) (hds : ∀ c ∈ ds, Scanner.isGap c) :
    ∃ ls, Grammar.Lexes cs ls ∧ ls.map Lexeme.unnested = w ++ [.eof] := by
  obtain ⟨v, rfl, hemits⟩ := h
  exact ⟨v ++ [.eof], hemits.lexes_of_gap hds, List.map_append⟩

end EmitsBare

theorem Emits.bare {n n' : Nesting} {cs ds : List Char} {w : List Lexeme}
    (h : Emits n cs w n' ds) : EmitsBare n cs (w.map Lexeme.unnested) n' ds := ⟨w, rfl, h⟩

namespace Scanner

variable {s s' : Scanner} {t : Token} {ts : List Token} {w : List Lexeme}

theorem next_eq_ok (h : s.next = (.ok t, s')) (ht : t.kind ≠ .eof) :
    ∃ gap c cs, s.rest = (gap ++ c :: cs) ++ s'.rest ∧ (∀ g ∈ gap, isGap g) ∧ isGap c = false ∧
      readLexeme s.nesting c (cs ++ s'.rest) = ⟨.ok t.toLexeme, s'.nesting, c :: cs, s'.rest⟩ ∧
      t.pos = s.pos.advance gap ∧ s'.pos = s.pos.advance (gap ++ c :: cs) := by
  unfold next at h
  dsimp only at h
  split at h
  · cases h
    exact absurd rfl ht
  case h_2 c cs hc =>
    have hrest : s.rest.dropWhile isGap = c :: cs := hc
    have hgap : ∀ g ∈ s.rest.takeWhile isGap, isGap g := fun g hg => List.mem_takeWhile_imp hg
    have hfirst : isGap c = false := by
      have hnot := List.head?_dropWhile_not isGap s.rest
      rwa [hrest] at hnot
    generalize hr : readLexeme s.skipGap.nesting c cs = r at h
    have hread : readLexeme s.nesting c cs = r := hr
    obtain ⟨result, nesting, taken, rest⟩ := r
    cases result with
    | error => cases h
    | ok l =>
      cases h
      have hsplit := readLexeme_taken_append_rest s.nesting c cs
      have hne := readLexeme_taken_ne_nil s.nesting c cs
      rw [hread] at hsplit hne
      obtain ⟨a, taken, rfl⟩ := List.exists_cons_of_ne_nil hne
      obtain ⟨rfl, rfl⟩ := List.cons.inj hsplit
      refine ⟨s.rest.takeWhile isGap, a, taken, ?_, hgap, hfirst, hread, rfl, ?_⟩
      · rw [List.append_assoc]
        exact (List.takeWhile_append_dropWhile.symm.trans (by rw [hrest]; rfl))
      · exact (Position.advance_append _ _ _).symm

theorem offset_of_operator (h : s.next = (.ok t, s')) (ht : t.kind = .operator) :
    s'.pos.offset = t.pos.offset + t.raw.length := by
  obtain ⟨gap, c, cs, -, -, -, hread, hpos, hpos'⟩ := next_eq_ok h (by rw [ht]; decide)
  rw [hpos', Position.advance_append, ← hpos, Position.offset_advance,
    readLexeme_operator_length hread ht]

theorem next_frame (h : s.next = (.ok t, s')) (ht : t.kind ≠ .eof) :
    ∃ cs, cs ≠ [] ∧ s.rest = cs ++ s'.rest ∧ s'.pos = s.pos.advance cs ∧
      ∀ k ds, MayFollow t.toLexeme s'.rest ds →
        EmitsBare (s.nesting.raise k) (cs ++ ds) [t.toLexeme.unnested] (s'.nesting.raise k) ds := by
  obtain ⟨gap, c, cs, hrest, hgap, hc, hread, -, hpos⟩ := next_eq_ok h ht
  refine ⟨gap ++ c :: cs, by simp, hrest, hpos, fun k ds hds => ?_⟩
  obtain ⟨l, hl, hraise⟩ := readLexeme_raise (readLexeme_frame hread hds) k
  rw [List.append_assoc]
  exact ⟨[l], congrArg (fun l => [l]) hl, .gap hgap (.of_readLexeme hc hraise)⟩

theorem Reaches.frame (h : s.Reaches w s') :
    ∃ cs, (w ≠ [] → cs ≠ []) ∧ s.rest = cs ++ s'.rest ∧ s'.pos = s.pos.advance cs ∧
      ∀ k ds, (∀ l ∈ w.getLast?, MayFollow l s'.rest ds) →
        EmitsBare (s.nesting.raise k) (cs ++ ds) (w.map Lexeme.unnested)
          (s'.nesting.raise k) ds := by
  induction h with
  | refl s =>
    exact ⟨[], fun h => absurd rfl h, rfl, rfl,
      fun k ds _ => Emits.bare fun pos => ⟨pos, .refl _⟩⟩
  | @cons s s' s'' t w hn ht hr ih =>
    obtain ⟨cs, hcs, hrest, hpos, hfirst⟩ := next_frame hn ht
    obtain ⟨cs', hcs', hrest', hpos', hmore⟩ := ih
    refine ⟨cs ++ cs', fun _ => by simp [hcs], by rw [hrest, hrest', List.append_assoc],
      by rw [hpos', hpos, Position.advance_append], fun k ds hds => ?_⟩
    rw [List.append_assoc]
    cases hr with
    | refl =>
      obtain rfl : cs' = [] := List.self_eq_append_left.1 hrest'
      exact hfirst k ds (hds _ rfl)
    | @cons _ _ _ _ w =>
      rw [List.getLast?_cons_cons] at hds
      refine (hfirst k _ (.alike ?_)).trans (hmore k ds hds)
      obtain ⟨c, cs', rfl⟩ := List.exists_cons_of_ne_nil (hcs' (List.cons_ne_nil _ _))
      rw [hrest']
      rfl

theorem next_eof (h : s.next = (.ok t, s')) (ht : t.kind = .eof) :
    t.toLexeme = .eof ∧ ∀ c ∈ s.rest, isGap c := by
  unfold next at h
  dsimp only at h
  split at h
  case h_1 hrest =>
    cases h
    exact ⟨rfl, List.dropWhile_eq_nil_iff.1 hrest⟩
  · split at h
    case h_1 l hl =>
      cases h
      exact absurd ht (readsAs_of_readLexeme hl).kind_ne
    · cases h

theorem reaches_of_run (h : s.run = (ts, none)) :
    ∃ w s', s.Reaches w s' ∧ (∀ c ∈ s'.rest, isGap c) ∧ ts.map (·.toLexeme) = w ++ [.eof] := by
  induction s using run.induct generalizing ts with
  | case1 s e s' hn => cases (run_error hn).symm.trans h
  | case2 s t s' hn ht =>
    cases (run_eof hn ht).symm.trans h
    obtain ⟨hl, hgap⟩ := next_eof hn ht
    exact ⟨[], s, .refl s, hgap, by rw [List.map_singleton, hl]; rfl⟩
  | case3 s t s' hn ht _ us e hrun ih =>
    cases (run_cons hn ht hrun).symm.trans h
    obtain ⟨w, s'', hr, hgap, hw⟩ := ih hrun
    exact ⟨_, s'', .cons hn ht hr, hgap, by rw [List.map_cons, hw]; rfl⟩

theorem reaches_of_run_append {us : List Token} (h : s.run = (us ++ t :: ts, none)) :
    ∃ s', s.Reaches (us.map (·.toLexeme)) s' ∧ s'.run = (t :: ts, none) := by
  induction s using run.induct generalizing us with
  | case1 s e s' hn => cases congrArg Prod.snd ((run_error hn).symm.trans h)
  | case2 s t' s' hn ht' =>
    obtain ⟨hts, -⟩ := Prod.mk.inj ((run_eof hn ht').symm.trans h)
    cases us with
    | nil => exact ⟨s, .refl s, h⟩
    | cons => simp at hts
  | case3 s t' s' hn ht' _ us' e hrun ih =>
    cases us with
    | nil => exact ⟨s, .refl s, h⟩
    | cons u us =>
      obtain ⟨hts, rfl⟩ := Prod.mk.inj ((run_cons hn ht' hrun).symm.trans h)
      cases hts
      obtain ⟨s₁, hr, hrun'⟩ := ih hrun
      exact ⟨s₁, .cons hn ht' hr, hrun'⟩

theorem next_of_run (h : s.run = (t :: ts, none)) :
    ∃ s', s.next = (.ok t, s') ∧ (t.kind ≠ .eof → s'.run = (ts, none)) := by
  induction s using run.induct with
  | case1 s e s' hn => cases (run_error hn).symm.trans h
  | case2 s t' s' hn ht' =>
    cases (run_eof hn ht').symm.trans h
    exact ⟨s', hn, fun hk => absurd ht' hk⟩
  | case3 s t' s' hn ht' _ us e hrun _ =>
    cases (run_cons hn ht' hrun).symm.trans h
    exact ⟨s', hn, fun _ => hrun⟩

theorem next_skipGap (s : Scanner) : s.skipGap.next = s.next := by
  have htake : (s.rest.dropWhile isGap).takeWhile isGap = [] := by
    have hfirst := List.head?_dropWhile_not isGap s.rest
    cases hrest : s.rest.dropWhile isGap with
    | nil => rfl
    | cons c cs =>
      rw [hrest] at hfirst
      exact List.takeWhile_cons_of_neg (Bool.eq_false_iff.1 hfirst)
  have hskip : s.skipGap.skipGap = s.skipGap := by
    simp only [skipGap, List.dropWhile_idempotent _ _, htake]
    rfl
  rw [next, hskip]
  rfl

theorem run_skipGap (s : Scanner) : s.skipGap.run = s.run := by
  rcases hn : s.next with ⟨e | t, s'⟩
  · rw [run_error hn, run_error (s.next_skipGap.trans hn)]
  · by_cases ht : t.kind = .eof
    · rw [run_eof hn ht, run_eof (s.next_skipGap.trans hn) ht]
    · rw [run_cons hn ht rfl, run_cons (s.next_skipGap.trans hn) ht rfl]

theorem pos_of_run (h : s.run = (t :: ts, none)) : t.pos = s.skipGap.pos := by
  obtain ⟨s', hn, -⟩ := next_of_run h
  unfold next at hn
  dsimp only at hn
  split at hn
  · cases hn
    rfl
  · split at hn
    · cases hn
      rfl
    · cases hn

/-- The scanner at a token, with the characters and the white space in front of it: if they end in
an operand, they are read again before a bracket. -/
theorem exists_before {us : List Token} (h : s.run = (us ++ t :: ts, none)) :
    ∃ (cs gap : List Char) (s' : Scanner), s.rest = cs ++ (gap ++ s'.rest) ∧
      (∀ g ∈ gap, isGap g) ∧ t.pos = s.pos.advance (cs ++ gap) ∧ s'.run = (t :: ts, none) ∧
      ∀ k ds, Grammar.Ended (bare us) → Breaks ds →
        EmitsBare (s.nesting.raise k) (cs ++ (gap ++ ds)) (bare us) (s'.nesting.raise k)
          (gap ++ ds) := by
  obtain ⟨s', hr, hrun⟩ := reaches_of_run_append h
  obtain ⟨cs, -, hrest, hpos, hframe⟩ := hr.frame
  have hsplit : s'.rest = s'.rest.takeWhile isGap ++ s'.skipGap.rest :=
    List.takeWhile_append_dropWhile.symm
  refine ⟨cs, s'.rest.takeWhile isGap, s'.skipGap, by rw [← hsplit, hrest],
    fun g hg => List.mem_takeWhile_imp hg, ?_, by rw [run_skipGap, hrun], fun k ds hus hds => ?_⟩
  · rw [pos_of_run hrun, Position.advance_append, ← hpos]
    rfl
  · rw [← map_unnested] at hus ⊢
    apply hframe k
    intro l hl
    have hends : l.endsValue :=
      hus.getLast? l.unnested (by rw [List.getLast?_map]; exact Option.mem_map_of_mem _ hl)
    generalize s'.rest.takeWhile isGap = gap at hsplit ⊢
    rw [hsplit]
    cases gap with
    | nil => exact .value hends hds
    | cons g gap => exact .alike rfl

theorem emitsBare_of_run (h : s.run = (ts, none)) :
    ∃ w n ds, EmitsBare s.nesting s.rest w n ds ∧ (∀ c ∈ ds, isGap c) ∧
      bare ts = w ++ [.eof] := by
  obtain ⟨w, s', hr, hgap, hw⟩ := reaches_of_run h
  obtain ⟨cs, -, hrest, -, hframe⟩ := hr.frame
  have hspells := hframe 0 s'.rest fun _ _ => .alike rfl
  rw [← hrest] at hspells
  exact ⟨_, _, s'.rest, hspells, hgap, by rw [← map_unnested, hw, List.map_append]; rfl⟩

end Scanner

def insertAt (source : List Char) (n : Nat) (cs : List Char) : List Char :=
  source.take n ++ cs ++ source.drop n

theorem insertAt_append (cs ds es : List Char) :
    insertAt (cs ++ ds) cs.length es = cs ++ (es ++ ds) := by
  rw [insertAt, List.take_left, List.drop_left, List.append_assoc]

def insertBehind (source : List Char) (t : Token) (cs : List Char) : List Char :=
  insertAt source (t.pos.offset + t.raw.length).toNat cs

def bracketBetween (source : List Char) (t m : Token) : List Char :=
  insertBehind (insertAt source m.pos.offset.toNat [')']) t ['(']

theorem toNat_offset_advance (cs : List Char) :
    (Position.start.advance cs).offset.toNat = cs.length := by
  rw [Position.offset_advance]
  change (0 + (cs.length : Int)).toNat = cs.length
  rw [Int.zero_add, Int.toNat_natCast]

/-- The scanner behind an operator, and the characters up to there: they are read again before
anything that does not go on with the operator. -/
theorem exists_behind {source : List Char} {before after : List Token} {t : Token}
    (h : lex source = (before ++ t :: after, none)) (ht : t.kind = .operator) :
    ∃ (cs : List Char) (s : Scanner), source = cs ++ s.rest ∧ s.pos = Position.start.advance cs ∧
      (∀ ds es, insertBehind (cs ++ ds) t es = cs ++ (es ++ ds)) ∧ s.run = (after, none) ∧
      ∀ d ds, d ∉ joining →
        EmitsBare {} (cs ++ d :: ds) (bare (before ++ [t])) s.nesting (d :: ds) := by
  have hk : t.kind ≠ .eof := by rw [ht]; decide
  obtain ⟨s₁, hbefore, hrun⟩ := Scanner.reaches_of_run_append h
  obtain ⟨s, hnext, hafter⟩ := Scanner.next_of_run hrun
  obtain ⟨cs, -, hrest, hpos, hframe⟩ := (hbefore.trans (.cons hnext hk (.refl s))).frame
  refine ⟨cs, s, hrest, hpos, fun ds es => ?_, hafter hk, fun d ds hd => ?_⟩
  · have hplace : s.pos.offset.toNat = cs.length := by
      rw [hpos]
      exact toNat_offset_advance cs
    rw [insertBehind, ← Scanner.offset_of_operator hnext ht, hplace, insertAt_append]
  · rw [← map_unnested, List.map_append]
    apply hframe 0 (d :: ds)
    intro l hl
    rw [List.getLast?_append] at hl
    cases hl
    exact .operator ht hd

end Reckon
