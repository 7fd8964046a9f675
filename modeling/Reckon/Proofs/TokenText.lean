import Reckon.Proofs.Insertion

namespace Reckon

def Lexeme.written (l : Lexeme) : List Char :=
  match l.kind with
  | .string => '"' :: l.raw.chars.flatMap escapeQuote ++ ['"']
  | .comment => '#' :: l.raw.chars
  | .eol => ['\n']
  | .eof => []
  | _ => l.raw.chars

/-- Lexemes written one behind another, with white space behind all but comments: `gap i` stands
before the last `i` of them. -/
def writeLexemes (gap : Nat → List Char) : List Lexeme → List Char
  | [] => []
  | [l] => l.written
  | l :: m :: w =>
    l.written ++ ((if l.kind = .comment then [] else gap (m :: w).length) ++
      writeLexemes gap (m :: w))

theorem numeralTail_raw {point digit : Bool} {cs ds : List Char}
    (hvalid : (numeralTail point digit cs).valid) (hds : Breaks ds) (digit' : Bool) :
    numeralTail point digit' ((numeralTail point digit cs).raw ++ ds) =
      { numeralTail point digit cs with
        taken := (numeralTail point digit cs).raw, rest := ds } := by
  -- An underscore is not in the text, and nothing else asks whether a digit stands before it.
  induction cs generalizing point digit digit' with
  | nil => exact hds.numeralTail point digit'
  | cons c cs ih =>
    rw [numeralTail] at hvalid ⊢
    by_cases hd : c.isDigit
    · rw [if_pos hd] at hvalid ⊢
      rw [Tail.keep, List.cons_append, numeralTail, if_pos hd, ih hvalid true]
      rfl
    rw [if_neg hd] at hvalid ⊢
    by_cases hu : c = '_'
    · rw [if_pos hu] at hvalid ⊢
      by_cases hs : (digit && startsWithDigit cs) = true
      · rw [if_pos hs] at hvalid ⊢
        exact ih hvalid digit'
      · rw [if_neg hs] at hvalid
        cases hvalid
    rw [if_neg hu] at hvalid ⊢
    by_cases hp : c = '.' ∧ !point
    · rw [if_pos hp] at hvalid ⊢
      rw [Tail.keep, List.cons_append, numeralTail, if_neg hd, if_neg hu, if_pos hp,
        ih hvalid false]
      rfl
    rw [if_neg hp] at hvalid ⊢
    by_cases ha : c = '.' ∨ c.isAlpha
    · rw [if_pos ha] at hvalid
      cases hvalid
    · rw [if_neg ha]
      exact hds.numeralTail point digit'

section Reading

variable {n n' : Nesting} {c : Char} {cs taken rest ds : List Char} {l : Lexeme}

/-- All lexemes but numerals and strings are written as they were read. -/
theorem ReadsAs.written (h : ReadsAs n c cs l n' rest) (hnum : l.kind ≠ .numeric)
    (hstr : l.kind ≠ .string) : l.written ++ rest = c :: cs := by
  cases h with
  | opening b hc => rw [hc]; rfl
  | closing hc => rw [hc]; rfl
  | numeral => exact absurd rfl hnum
  | string => exact absurd rfl hstr
  | compound hcs => rw [hcs]; rfl
  | operator => rfl
  | separator => rfl
  | comment hc =>
    rw [hc]
    change '#' :: (Text.ofChars _).chars ++ _ = _
    rw [Text.chars_ofChars, List.cons_append, List.takeWhile_append_dropWhile]
  | eol hc => rw [hc]; rfl
  | keyword _ hname _ =>
    subst hname
    change (Text.ofChars _).chars ++ _ = _
    rw [Text.chars_ofChars, List.cons_append, List.takeWhile_append_dropWhile]
  | identifier _ hname _ =>
    subst hname
    change (Text.ofChars _).chars ++ _ = _
    rw [Text.chars_ofChars, List.cons_append, List.takeWhile_append_dropWhile]

theorem readLexeme_written (hc : Scanner.isGap c = false)
    (h : readLexeme n c cs = ⟨.ok l, n', taken, rest⟩) (hds : MayFollow l rest ds)
    (hbreaks : l.kind ≠ .comment → Breaks ds) :
    ∃ a as, l.written = a :: as ∧ Scanner.isGap a = false ∧
      readLexeme n a (as ++ ds) = ⟨.ok l, n', a :: as, ds⟩ := by
  have hreads : ReadsAs n c cs l n' rest := by
    have hr := readsAs_of_readLexeme (congrArg Reading.result h)
    rw [h] at hr
    exact hr
  by_cases hnum : l.kind = .numeric
  · have hb := hbreaks (by rw [hnum]; decide)
    cases hreads with
    | numeral hfirst htail hvalid =>
      subst htail
      refine ⟨c, _, Text.chars_ofChars _, hc, ?_⟩
      rw [readLexeme_numeral hfirst, numeralTail_raw hvalid hb]
      dsimp only
      rw [if_pos hvalid]
    | _ => cases hnum
  by_cases hstr : l.kind = .string
  · cases hreads with
    | string _ htail _ =>
      subst htail
      refine ⟨'"', _, rfl, rfl, ?_⟩
      simpa [Lexeme.plain] using
        readLexeme_escaped (backslash_not_mem_stringTail c false cs) _ ds
    | _ => cases hstr
  · have hsplit := readLexeme_taken_append_rest n c cs
    have hne := readLexeme_taken_ne_nil n c cs
    have hw := hreads.written hnum hstr
    rw [h] at hsplit hne
    obtain rfl : l.written = taken := List.append_cancel_right (hw.trans hsplit.symm)
    obtain ⟨a, as, hwritten⟩ := List.exists_cons_of_ne_nil hne
    have hwritten : l.written = a :: as := hwritten
    rw [hwritten] at hw h
    obtain rfl : a = c := (List.cons.inj hw).1
    exact ⟨a, as, hwritten, hc, readLexeme_frame h hds⟩

end Reading

namespace Scanner

variable {s s' : Scanner} {t : Token} {ts : List Token} {gap : Nat → List Char} {ds : List Char}

theorem next_written (h : s.next = (.ok t, s')) (ht : t.kind ≠ .eof)
    (hds : MayFollow t.toLexeme s'.rest ds) (hbreaks : t.kind ≠ .comment → Breaks ds)
    (pos : Position) :
    next ⟨t.written ++ ds, pos, s.nesting⟩ =
      (.ok { t.toLexeme with pos }, ⟨ds, pos.advance t.written, s'.nesting⟩) := by
  obtain ⟨_, c, cs, -, -, hc, hread, -⟩ := next_eq_ok h ht
  obtain ⟨a, as, hwritten, ha, hread'⟩ := readLexeme_written hc hread hds hbreaks
  rw [hwritten]
  exact next_of_readLexeme ha hread' pos

theorem next_comment (h : s.next = (.ok t, s')) (ht : t.kind = .comment) :
    s'.rest = [] ∨ ∃ es, s'.rest = '\n' :: es := by
  rcases next_cases h with ⟨heof, -⟩ | ⟨c, cs, -, hr⟩
  · rw [heof] at ht
    cases ht
  · generalize t.toLexeme = l at hr ht
    generalize s'.nesting = n', s'.rest = rest at hr ⊢
    cases hr with
    | comment =>
      have hstop := List.head?_dropWhile_not (· ≠ '\n') cs
      cases hrest : cs.dropWhile (· ≠ '\n') with
      | nil => exact .inl rfl
      | cons d es =>
        rw [hrest] at hstop
        have hd : d = '\n' := by simpa using hstop
        exact .inr ⟨es, by rw [hd]⟩
    | _ => cases ht

theorem run_gap {g : List Char} (hg : ∀ c ∈ g, isGap c) (cs : List Char) (pos : Position)
    (n : Nesting) : run ⟨g ++ cs, pos, n⟩ = run ⟨cs, pos.advance g, n⟩ := by
  have hskip : skipGap ⟨g ++ cs, pos, n⟩ = skipGap ⟨cs, pos.advance g, n⟩ := by
    simp only [skipGap, List.takeWhile_append_of_pos hg, List.dropWhile_append_of_pos hg,
      Position.advance_append]
  rw [← run_skipGap, hskip, run_skipGap]

theorem mayFollow_written {u : Token} (h : s.run = (u :: ts, none))
    (hrest : s.rest = [] ∨ ∃ es, s.rest = '\n' :: es) (l : Lexeme) :
    MayFollow l s.rest (writeLexemes gap ((u :: ts).map (·.toLexeme))) := by
  obtain ⟨rest, pos, n⟩ := s
  rcases hrest with rfl | ⟨es, rfl⟩
  · cases (run_eof (s := ⟨[], pos, n⟩) rfl rfl).symm.trans h
    exact .alike rfl
  · obtain ⟨s', hnext, -⟩ := next_of_run h
    have hline : u.toLexeme = .plain .eol ['\n'] := by
      cases hnext
      rfl
    rw [List.map_cons, hline]
    cases ts with
    | nil => exact .newline _
    | cons => exact .newline _

theorem follows_written (gap : Nat → List Char) {u : Token} {us : List Token} {g : List Char}
    (hn : s.next = (.ok t, s')) (hrun : s'.run = (u :: us, none)) (hg : g ≠ [])
    (hspace : ∀ c ∈ g, isGap c)
    (hds : (if t.kind = .comment then [] else g) ++ writeLexemes gap ((u :: us).map (·.toLexeme)) =
      ds) : MayFollow t.toLexeme s'.rest ds ∧ (t.kind ≠ .comment → Breaks ds) := by
  subst hds
  by_cases hk : t.kind = .comment
  · rw [if_pos hk, List.nil_append]
    exact ⟨mayFollow_written hrun (next_comment hn hk) _, fun hk' => absurd hk hk'⟩
  · obtain ⟨d, g, rfl⟩ := List.exists_cons_of_ne_nil hg
    have hd : isGap d := (List.forall_mem_cons.1 hspace).1
    rw [if_neg hk]
    exact ⟨.gap hk hd, fun _ => .gap hd⟩

theorem run_written (hgap : ∀ i, gap i ≠ [] ∧ ∀ c ∈ gap i, isGap c) (h : s.run = (ts, none))
    (pos : Position) :
    ∃ us, run ⟨writeLexemes gap (ts.map (·.toLexeme)), pos, s.nesting⟩ = (us, none) ∧
      us.map (·.toLexeme) = ts.map (·.toLexeme) := by
  induction s using run.induct generalizing ts pos with
  | case1 s e s' hn => cases (run_error hn).symm.trans h
  | case2 s t s' hn ht =>
    cases (run_eof hn ht).symm.trans h
    obtain ⟨hl, -⟩ := next_eof hn ht
    rw [List.map_singleton, hl]
    exact ⟨_, run_eof rfl rfl, rfl⟩
  | case3 s t s' hn ht _ us e hrun ih =>
    cases (run_cons hn ht hrun).symm.trans h
    cases us with
    | nil =>
      obtain ⟨w, _, -, -, hw⟩ := reaches_of_run hrun
      simp at hw
    | cons u us =>
      rw [List.map_cons, List.map_cons, writeLexemes, ← List.map_cons]
      obtain ⟨hg, hspace⟩ := hgap ((u :: us).map (·.toLexeme)).length
      generalize gap ((u :: us).map (·.toLexeme)).length = g at hg hspace ⊢
      obtain ⟨hfollow, hbreaks⟩ := follows_written gap hn hrun hg hspace rfl
      have hnext := next_written hn ht hfollow hbreaks pos
      have hskip : ∀ c ∈ (if t.kind = .comment then [] else g), isGap c := by
        split
        · exact List.forall_mem_nil _
        · exact hspace
      obtain ⟨us', hus, hmap⟩ := ih hrun ((pos.advance t.written).advance _)
      rw [← run_gap hskip] at hus
      exact ⟨_, run_cons hnext ht hus, by rw [List.map_cons, hmap]⟩

end Scanner

/-- The tokens of a source, written back with any white space between them, are read again as the
same tokens in other places. -/
theorem lex_writeLexemes {source : List Char} {ts : List Token} {gap : Nat → List Char}
    (h : lex source = (ts, none)) (hgap : ∀ i, gap i ≠ [] ∧ ∀ c ∈ gap i, Scanner.isGap c) :
    ∃ us, lex (writeLexemes gap (ts.map (·.toLexeme))) = (us, none) ∧
      us.map (·.toLexeme) = ts.map (·.toLexeme) :=
  Scanner.run_written hgap h .start

/-- A numeral loses its underscore, a string gets other quotes, and a comment stays at its line. -/
theorem lex_writeLexemes_call :
    ∃ us, lex "f\t(\t\"a\\\"b\"\t,\t10.5\t)\t# x\n\ty\t".toList = (us, none) ∧
      us.map (·.toLexeme) =
        [.plain .identifier ['f'], .opening '(' 0, .plain .string ['a', '"', 'b'], .separator ',',
          .numeral ['1', '0', '.', '5'] true, .closing ')' 0, .plain .comment [' ', 'x'],
          .plain .eol ['\n'], .plain .identifier ['y'], .eof] := by
  have hlex : (lex "f('a\"b', 1_0.5)# x\ny".toList).2 = none := by decide +kernel
  have htokens : (lex "f('a\"b', 1_0.5)# x\ny".toList).1.map (·.toLexeme) =
      [.plain .identifier ['f'], .opening '(' 0, .plain .string ['a', '"', 'b'], .separator ',',
        .numeral ['1', '0', '.', '5'] true, .closing ')' 0, .plain .comment [' ', 'x'],
        .plain .eol ['\n'], .plain .identifier ['y'], .eof] := by decide +kernel
  have hgap : ∀ i : Nat, (fun _ => ['\t']) i ≠ [] ∧ ∀ c ∈ (fun _ => ['\t']) i, Scanner.isGap c :=
    fun _ => ⟨List.cons_ne_nil _ _, List.forall_mem_singleton.2 rfl⟩
  obtain ⟨us, hus, hmap⟩ := lex_writeLexemes (Prod.ext rfl hlex) hgap
  rw [htokens] at hus hmap
  exact ⟨us, hus, hmap⟩

end Reckon
