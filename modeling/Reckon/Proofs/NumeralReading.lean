import Mathlib.Data.Nat.Digits.Defs
import Reckon.Proofs.Composition
import Reckon.Proofs.NumeralSyntax
import Reckon.Proofs.RoundTrip

namespace Reckon

theorem ofDigits_eq (ds : List Char) :
    ofDigits ds = Nat.ofDigits 10 (ds.map digitValue).reverse := by
  induction ds using List.reverseRecOn with
  | nil => rfl
  | append_singleton ds d ih =>
    have hlast : ofDigits (ds ++ [d]) = 10 * ofDigits ds + digitValue d := List.foldl_append
    rw [hlast, ih, List.map_append, List.reverse_append, List.map_singleton, List.reverse_singleton,
      List.singleton_append, Nat.ofDigits_cons]
    exact Nat.add_comm _ _

namespace Cursor

variable {c : Cursor} {f : ParseFailure}

theorem parseTier_of_factor (h : parseFactor c = .error f) :
    parseTier (some .logical) c = .error f := by
  have outer {t : Tier} (h : parseTier t.tighter c = .error f) :
      parseTier (some t) c = .error f := by
    rw [parseTier.eq_def, note_bind]
    exact bind_eq_error.2 (.inl h)
  have h : parseTier none c = .error f := by rw [parseTier_none, note_bind, h]
  exact outer (t := .logical) (outer (t := .expression) (outer (t := .term) h))

theorem parseStatements_of_factor (hb : ¬ c.current.isBlank) (hk : c.current.kind ≠ .eof)
    (h : parseFactor c = .error f) : parseStatements c = .error f := by
  obtain ⟨_, hskip⟩ := (Skips.refl hb).skipBlank
  rw [parseStatements.eq_def, note_bind, hskip]
  refine bind_eq_error.2 (.inr ⟨_, rfl, ?_⟩)
  dsimp only
  rw [if_neg hk]
  exact bind_eq_error.2 (.inl (parseTier_of_factor h))

end Cursor

section Alone

variable {source : List Char} {l : Lexeme}

theorem Grammar.Lexes.alone (h : Lexes source [l, .eof]) :
    ∃ c d, Cursor.First source c ∧ c.current.toLexeme = l ∧ c.Step d ∧ d.current.kind = .eof := by
  obtain ⟨c, d, w, hfirst, -, hsteps, hd, hw⟩ := h.steps
  have hw : [l] ++ [Lexeme.eof] = w ++ [d.current.toLexeme] := hw
  obtain ⟨rfl, -⟩ := List.append_inj' hw rfl
  obtain ⟨hl, hstep⟩ := Cursor.steps_singleton.1 hsteps
  exact ⟨c, d, hfirst, hl, hstep, hd⟩

theorem Program.parse_literal (hlex : Grammar.Lexes source [l, .eof]) (hk : l.kind = .numeric)
    {v : Literal} (hv : ∀ t : Token, t.toLexeme = l → t.literal = .ok v) :
    Program.parse source = .ok ⟨[.literal v]⟩ := by
  obtain ⟨c, d, hfirst, rfl, hstep, hd⟩ := hlex.alone
  have hread := Cursor.Reads.numeral hk (hv c.current rfl) hstep
  refine Program.parse_eq_ok.2 ⟨c, d, hfirst, .cons (.refl ?_) ?_
    (Grammar.reads_logical hread (.inr (.inl hd))) ?_ (.done (.refl ?_) hd)⟩
  · simp [Lexeme.isBlank, hk]
  · simp [hk]
  · simp [endsStatement, hd]
  · simp [Lexeme.isBlank, hd]

theorem Program.parse_malformed (hlex : Grammar.Lexes source [l, .eof]) (hk : l.kind = .numeric)
    (hv : ∀ t : Token, t.toLexeme = l → ∃ e, t.literal = .error e) :
    ∃ e, Program.parse source = .error e ∧ e.fault = .literal := by
  obtain ⟨c, d, hfirst, rfl, -⟩ := hlex.alone
  obtain ⟨e, he⟩ := hv c.current rfl
  have hfail := Cursor.parseStatements_of_factor (by simp [Lexeme.isBlank, hk]) (by simp [hk])
    (Cursor.parseFactor_malformed hk he)
  have hparse := bind_eq_error.2 (.inr ⟨c, Cursor.ofLexer_eq_ok.2 hfirst, hfail⟩)
  exact ⟨_, Program.parse_of_error hparse, rfl⟩

end Alone

section Integer

variable {t : Token} {raw : List Char} (ht : t.toLexeme = .numeral raw false)
include ht

theorem Token.literal_integer {v : Int32} (h : int32? raw = some v) :
    t.literal = .ok (.integer v) := by
  obtain ⟨_, pos⟩ := t
  subst ht
  simp [Token.literal, Lexeme.numeral, h]

theorem Token.literal_too_large (h : int32? raw = none) : ∃ e, t.literal = .error e := by
  obtain ⟨_, pos⟩ := t
  subst ht
  simp [Token.literal, Lexeme.numeral, h]

end Integer

namespace Numeral

variable {s : Stage} {c : Char} {cs w : List Char}

theorem Continues.chars (h : Continues s w) : ∀ c ∈ w, c.isDigit ∨ c = '_' ∨ c = '.' := by
  induction h with
  | done s => exact List.forall_mem_nil _
  | digit hc _ ih => exact List.forall_mem_cons.2 ⟨.inl hc, ih⟩
  | grouped _ hc _ ih =>
    exact List.forall_mem_cons.2 ⟨.inr (.inl rfl), List.forall_mem_cons.2 ⟨.inl hc, ih⟩⟩
  | point _ ih => exact List.forall_mem_cons.2 ⟨.inr (.inr rfl), ih⟩

theorem exists_start (h : w ∈ pattern.matches') :
    ∃ c cs, w = c :: cs ∧ (c.isDigit ∨ c = '.') ∧ Continues (.start c) cs := by
  cases w with
  | nil => exact absurd h (by decide)
  | cons c cs =>
    have hc : c.isDigit ∨ c = '.' := (mem_pattern.1 h).imp And.left And.left
    exact ⟨c, cs, rfl, hc, (mem_pattern_start hc).1 h⟩

theorem chars_of_mem (h : w ∈ pattern.matches') : ∀ c ∈ w, c.isDigit ∨ c = '_' ∨ c = '.' := by
  obtain ⟨c, cs, rfl, hc, hcs⟩ := exists_start h
  exact List.forall_mem_cons.2 ⟨hc.imp_right .inr, hcs.chars⟩

theorem isNumeralChar_of_mem (h : w ∈ pattern.matches') : ∀ c ∈ w, isNumeralChar c := by
  intro c hc
  rcases chars_of_mem h c hc with hd | rfl | rfl
  · exact isNumeralChar_start (.inl hd)
  · rfl
  · rfl

theorem isGap_start (hc : c.isDigit ∨ c = '.') : Scanner.isGap c = false := by
  rcases hc with hd | rfl
  · exact isGap_of_isNameChar (isNameChar_of_isDigit hd)
  · rfl

theorem lexes (h : w ∈ pattern.matches') :
    Grammar.Lexes w [.numeral (w.filter (· ≠ '_')) (w.contains '.'), .eof] := by
  have hrun : run w = w := List.takeWhile_eq_self_iff.2 (isNumeralChar_of_mem h)
  have hrest : w.dropWhile isNumeralChar = [] :=
    List.dropWhile_eq_nil_iff.2 (isNumeralChar_of_mem h)
  obtain ⟨c, cs, rfl, hc, -⟩ := exists_start h
  have hread := readLexeme_of_mem hc (hrun.symm ▸ h) {}
  rw [hrun, hrest] at hread
  exact (Emits.of_readLexeme (isGap_start hc) hread).lexes

def value (w : List Char) : Nat :=
  Nat.ofDigits 10 ((w.filter Char.isDigit).map digitValue).reverse

section Whole

variable (h : w ∈ pattern.matches') (hp : '.' ∉ w)
include h hp

theorem filter_whole : w.filter (· ≠ '_') = w.filter Char.isDigit := by
  apply List.filter_congr
  intro c hc
  rcases chars_of_mem h c hc with hd | rfl | rfl
  · simpa [hd] using isDigit_ne hd (by decide : ¬ '_'.isDigit)
  · rfl
  · exact absurd hc hp

theorem int32?_whole : int32? (w.filter (· ≠ '_')) =
    if value w < Nat.pow 2 31 then some (.ofInt (value w)) else none := by
  rw [filter_whole h hp, value, ← ofDigits_eq]
  obtain ⟨c, cs, rfl, hc | rfl, -⟩ := exists_start h
  · rw [List.filter_cons_of_pos hc]
    exact int32?_digits hc fun c hc => (List.mem_filter.1 hc).2
  · exact absurd List.mem_cons_self hp

theorem lexes_whole : Grammar.Lexes w [.numeral (w.filter (· ≠ '_')) false, .eof] := by
  have hlex := lexes h
  rwa [List.contains_eq_mem, decide_eq_false hp] at hlex

theorem parse_whole (hw : value w < 2 ^ 31) :
    ∃ v : Int32, Program.parse w = .ok ⟨[.literal (.integer v)]⟩ ∧ v.toInt = value w := by
  have hlt : value w < Nat.pow 2 31 := hw
  have hread := int32?_whole h hp
  rw [if_pos hlt] at hread
  refine ⟨.ofInt (value w), Program.parse_literal (lexes_whole h hp) rfl ?_, ?_⟩
  · intro t ht
    exact t.literal_integer ht hread
  · exact Int32.toInt_ofInt_of_le (by omega) (by omega)

theorem parse_large (hw : 2 ^ 31 ≤ value w) :
    ∃ e, Program.parse w = .error e ∧ e.fault = .literal := by
  have hle : ¬ value w < Nat.pow 2 31 := Nat.not_lt.2 hw
  have hread := int32?_whole h hp
  rw [if_neg hle] at hread
  apply Program.parse_malformed (lexes_whole h hp) rfl
  intro t ht
  exact t.literal_too_large ht hread

end Whole

section Lexing

variable {gap : List Char} (hgap : ∀ d ∈ gap, Scanner.isGap d) (hc : c.isDigit ∨ c = '.')
  (pos : Position) (n : Nesting)
include hgap hc

theorem next_of_mem (h : run (c :: cs) ∈ pattern.matches') :
    Lexer.next { scanner := ⟨gap ++ c :: cs, pos, n⟩ } =
      (.ok { Lexeme.numeral ((run (c :: cs)).filter (· ≠ '_')) ((run (c :: cs)).contains '.') with
          pos := pos.advance gap },
        { scanner := ⟨(c :: cs).dropWhile isNumeralChar,
            (pos.advance gap).advance (run (c :: cs)), n⟩ }) := by
  have hnext := Scanner.next_of_readLexeme (isGap_start hc) (readLexeme_of_mem hc h n)
    (pos.advance gap)
  rw [← Scanner.next_gap hgap] at hnext
  rw [Lexer.next, hnext]

theorem next_of_not_mem (h : run (c :: cs) ∉ pattern.matches') :
    ∃ raw taken rest, taken <+: run (c :: cs) ∧ taken ++ rest = c :: cs ∧
      Lexer.next { scanner := ⟨gap ++ c :: cs, pos, n⟩ } =
        (.error ⟨.invalidNumber raw, pos.advance gap⟩,
          { scanner := ⟨rest, (pos.advance gap).advance taken, n⟩ }) := by
  obtain ⟨raw, taken, rest, htaken, hread⟩ := readLexeme_of_not_mem hc h n
  have hsplit := readLexeme_taken_append_rest n c cs
  have hnext := Scanner.next_of_readLexeme_error (isGap_start hc) hread (pos.advance gap)
  rw [← Scanner.next_gap hgap] at hnext
  rw [hread] at hsplit
  refine ⟨raw, taken, rest, htaken, hsplit, ?_⟩
  rw [Lexer.next, hnext]

end Lexing

/-- At a digit or a point the lexer takes exactly the run of numeral characters when the run is a
numeral, and otherwise fails at its start with some of it taken. A numeral without a point, alone in
a source, is parsed to the number it writes if that is below `2 ^ 31`, and else refused. -/
theorem recognised_exactly :
    (∀ (gap : List Char) (c : Char) (cs : List Char) (pos : Position) (n : Nesting),
      (∀ d ∈ gap, Scanner.isGap d) → (c.isDigit ∨ c = '.') →
      let l : Lexer := { scanner := ⟨gap ++ c :: cs, pos, n⟩ }
      let start := pos.advance gap
      let numeral := run (c :: cs)
      ((∃ t, l.next.1 = .ok t ∧ t.kind = .numeric) ↔ numeral ∈ pattern.matches') ∧
      (numeral ∈ pattern.matches' →
        l.next = (.ok { Lexeme.numeral (numeral.filter (· ≠ '_')) (numeral.contains '.') with
            pos := start },
          { scanner := ⟨(c :: cs).dropWhile isNumeralChar, start.advance numeral, n⟩ })) ∧
      (numeral ∉ pattern.matches' →
        ∃ raw taken rest, taken <+: numeral ∧ taken ++ rest = c :: cs ∧
          l.next = (.error ⟨.invalidNumber raw, start⟩,
            { scanner := ⟨rest, start.advance taken, n⟩ }))) ∧
    ∀ w ∈ pattern.matches', '.' ∉ w →
      (value w < 2 ^ 31 →
        ∃ v : Int32, Program.parse w = .ok ⟨[.literal (.integer v)]⟩ ∧ v.toInt = value w) ∧
      (2 ^ 31 ≤ value w → ∃ e, Program.parse w = .error e ∧ e.fault = .literal) := by
  refine ⟨?_, fun w h hp => ⟨parse_whole h hp, parse_large h hp⟩⟩
  intro gap c cs pos n hgap hc
  refine ⟨⟨?_, ?_⟩, next_of_mem hgap hc pos n, next_of_not_mem hgap hc pos n⟩
  · rintro ⟨t, ht, -⟩
    by_contra h
    obtain ⟨_, _, _, _, _, hnext⟩ := next_of_not_mem hgap hc pos n h
    rw [hnext] at ht
    cases ht
  · intro h
    rw [next_of_mem hgap hc pos n h]
    exact ⟨_, rfl, rfl⟩

theorem recognised_exactly_grouped :
    Lexer.next { scanner := { rest := "\t 1_0.5+x".toList } } =
      (.ok { Lexeme.numeral "10.5".toList true with pos := Position.start.advance ['\t', ' '] },
        { scanner := { rest := "+x".toList, pos := Position.start.advance "\t 1_0.5".toList } }) ∧
    (∃ raw taken rest, taken <+: "1__0".toList ∧ taken ++ rest = "1__0".toList ∧
      Lexer.next { scanner := { rest := "1__0".toList } } =
        (.error ⟨.invalidNumber raw, .start⟩,
          { scanner := { rest := rest, pos := Position.start.advance taken } })) ∧
    (∃ v : Int32, Program.parse "00_2_147_483_647".toList = .ok ⟨[.literal (.integer v)]⟩ ∧
      v.toInt = 2147483647) ∧
    ∃ e, Program.parse "2_147_483_648".toList = .error e ∧ e.fault = .literal := by
  have hfound := (recognised_exactly.1 ['\t', ' '] '1' "_0.5+x".toList .start {}
    (List.all_eq_true.1 rfl) (.inl rfl)).2.1 (by decide)
  have hfailed := (recognised_exactly.1 [] '1' "__0".toList .start {}
    (List.forall_mem_nil _) (.inl rfl)).2.2 (by decide)
  have hlargest := (recognised_exactly.2 "00_2_147_483_647".toList (by decide)
    (by decide)).1 (by decide)
  have hlarge := (recognised_exactly.2 "2_147_483_648".toList (by decide)
    (by decide)).2 (by decide)
  exact ⟨hfound, hfailed, hlargest, hlarge⟩

end Numeral

end Reckon
