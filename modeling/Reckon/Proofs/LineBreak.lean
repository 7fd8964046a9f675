import Reckon.Proofs.Insertion
import Reckon.Proofs.Regrouping

namespace Reckon

inductive IsBreak : List Char → Prop where
  | newline : IsBreak ['\n']
  | comment {cs : List Char} : '\n' ∉ cs → IsBreak ('#' :: cs ++ ['\n'])

theorem Emits.comment {cs : List Char} (h : '\n' ∉ cs) (n : Nesting) (ds : List Char) :
    Emits n ('#' :: cs ++ '\n' :: ds) [.plain .comment cs] n ('\n' :: ds) := by
  have hcs : ∀ c ∈ cs, decide (c ≠ '\n') = true := by
    intro c hc
    rw [decide_eq_true_iff]
    rintro rfl
    exact h hc
  have hread : readLexeme n '#' (cs ++ '\n' :: ds) =
      ⟨.ok (.plain .comment ((cs ++ '\n' :: ds).takeWhile (· ≠ '\n'))), n,
        '#' :: (cs ++ '\n' :: ds).takeWhile (· ≠ '\n'),
        (cs ++ '\n' :: ds).dropWhile (· ≠ '\n')⟩ := rfl
  rw [List.takeWhile_append_of_pos hcs, List.dropWhile_append_of_pos hcs] at hread
  simp only [ne_eq, decide_not, decide_true, Bool.not_true, Bool.false_eq_true,
    not_false_eq_true, List.takeWhile_cons_of_neg, List.append_nil,
    List.dropWhile_cons_of_neg] at hread
  exact .of_readLexeme rfl hread

theorem IsBreak.emits {gap : List Char} (h : IsBreak gap) :
    ∃ u, Grammar.Blanks u ∧ u ≠ [] ∧ ∀ n cs, Emits n (gap ++ cs) u n cs := by
  cases h with
  | newline =>
    exact ⟨[.plain .eol ['\n']], List.forall_mem_singleton.2 rfl, List.cons_ne_nil _ _, Emits.eol⟩
  | @comment cs hcs =>
    refine ⟨[.plain .comment cs, .plain .eol ['\n']], ?_, List.cons_ne_nil _ _, fun n ds => ?_⟩
    · exact List.forall_mem_cons.2 ⟨rfl, List.forall_mem_singleton.2 rfl⟩
    · have hcomment := Emits.comment hcs n ds
      have hbreak := hcomment.cons (.eol n ds)
      simpa using hbreak

theorem IsBreak.eq_cons {gap : List Char} (h : IsBreak gap) :
    ∃ d ds, gap = d :: ds ∧ d ∉ joining := by
  cases h with
  | newline => exact ⟨'\n', [], rfl, by decide⟩
  | comment => exact ⟨'#', _, rfl, by decide⟩

section Insertion

variable {source : List Char} {before after : List Token} {t : Token}

theorem lexes_insertBehind {gap : List Char} (h : lex source = (before ++ t :: after, none))
    (ht : t.kind = .operator) (hgap : IsBreak gap) :
    ∃ u ls, Grammar.Blanks u ∧ u ≠ [] ∧ Grammar.Lexes (insertBehind source t gap) ls ∧
      ls.map Lexeme.unnested = bare before ++ t.toLexeme.unnested :: (u ++ bare after) := by
  obtain ⟨u, hu, hne, hemits⟩ := hgap.emits
  obtain ⟨d, ds, rfl, hd⟩ := hgap.eq_cons
  obtain ⟨cs, s, rfl, -, hinsert, hrun, hfront⟩ := exists_behind h ht
  obtain ⟨w, n, es, hback, hend, hw⟩ := Scanner.emitsBare_of_run hrun
  have hall := (hfront d (ds ++ s.rest) hd).trans ((hemits s.nesting s.rest).bare.trans hback)
  obtain ⟨ls, hlexes, hls⟩ := hall.lexes hend
  refine ⟨u.map Lexeme.unnested, ls, Grammar.blanks_unnested hu, by simpa using hne, ?_, ?_⟩
  · rwa [hinsert]
  · rw [hls, hw]
    simp [bare]

/-- Brackets add their own tokens and change no other, if an operand stands in front of the second
one. -/
theorem lexes_bracketBetween {mid rest : List Token} {m : Token}
    (h : lex source = (before ++ t :: (mid ++ m :: rest), none)) (ht : t.kind = .operator)
    (hmid : Grammar.Ended (bare mid)) :
    ∃ ls, Grammar.Lexes (bracketBetween source t m) ls ∧
      ls.map Lexeme.unnested = bare before ++ t.toLexeme.unnested ::
        .opening '(' 0 :: bare mid ++ .closing ')' 0 :: bare (m :: rest) := by
  obtain ⟨cs, s, rfl, hpos, hinsert, hrun, hfront⟩ := exists_behind h ht
  obtain ⟨cs', gap, s', hrest', hgap, hm, hrun', hframe⟩ := Scanner.exists_before hrun
  obtain ⟨w, n, es, hback, hend, hw⟩ := Scanner.emitsBare_of_run hrun'
  have htext : bracketBetween (cs ++ s.rest) t m =
      cs ++ '(' :: (cs' ++ (gap ++ ')' :: s'.rest)) := by
    have hplace : m.pos.offset.toNat = (cs ++ (cs' ++ gap)).length := by
      rw [hm, hpos, ← Position.advance_append, toNat_offset_advance]
    have hwhole : cs ++ s.rest = (cs ++ (cs' ++ gap)) ++ s'.rest := by
      rw [hrest', List.append_assoc, List.append_assoc]
    rw [bracketBetween, hplace, hwhole, insertAt_append, List.append_assoc, hinsert]
    simp
  have hinner := hframe 1 (')' :: s'.rest) hmid (.cons (by decide))
  have hcloser := Emits.gap hgap (.closing s'.nesting .round s'.rest)
  have hopener := Emits.opening s.nesting .round (cs' ++ (gap ++ ')' :: s'.rest))
  have hall := (hfront '(' _ (by decide)).trans
    (hopener.bare.trans (hinner.trans (hcloser.bare.trans hback)))
  obtain ⟨ls, hlexes, hls⟩ := hall.lexes hend
  refine ⟨ls, by rwa [htext], ?_⟩
  rw [hls, hw]
  simp [bare, Lexeme.unnested, Lexeme.opening, Lexeme.closing, Bracket.opener, Bracket.closer]

end Insertion

theorem exists_token {source : List Char} {before after : List Token} {t : Token}
    {mid rest : List Lexeme} {e : Expr} (h : lex source = (before ++ t :: after, none))
    (hsplit : bare after = mid ++ rest)
    (he : Grammar.Parses (.tier .logical) (mid ++ rest) e rest) :
    ∃ us m vs, after = us ++ m :: vs ∧ mid = bare us ∧ rest = bare (m :: vs) ∧
      Grammar.Ended (bare us) := by
  obtain ⟨us, vs, rfl, rfl, rfl⟩ := List.map_eq_append_iff.1 hsplit
  obtain ⟨c, hc, hended, -⟩ := he.frame
  obtain rfl := List.append_cancel_right hc
  cases vs with
  | cons m vs => exact ⟨us, m, vs, rfl, rfl, rfl, hended⟩
  | nil =>
    -- The last token is the end of the source, and no expression takes that.
    obtain ⟨w, _, _, -, -, hw⟩ := Scanner.emitsBare_of_run h
    have hwhole : Grammar.Ended (bare (before ++ t :: (us ++ []))) := by
      rw [List.append_nil, bare, List.map_append]
      exact Grammar.Ended.append (Grammar.Ended.cons hended _) _
    have hlast : (Lexeme.eof).endsValue := by
      apply hwhole.getLast?
      rw [hw, List.getLast?_append]
      rfl
    cases hlast

/-- A line break directly behind an operator of a program gives a program. It is the same program
just when no operator follows the operand, as is always so for an assignment; in any case it is the
program that brackets around the rest of the expression give. -/
theorem Program.parse_insertBehind {source gap : List Char} {p : Program}
    {before after : List Token} {t : Token} (h : Program.parse source = .ok p)
    (hlex : (lex source).1 = before ++ t :: after) (ht : t.kind = .operator)
    (hgap : IsBreak gap) :
    ∃ q, Program.parse (insertBehind source t gap) = .ok q ∧
      (∃ operand behind,
        Grammar.HasOperand (bare before) t.toLexeme.unnested (bare after) operand behind ∧
        (q = p ↔ Grammar.Closed behind)) ∧
      (t.isOperator "=" → q = p) ∧
      ∃ e mid m rest, after = mid ++ m :: rest ∧
        Grammar.Parses (.tier .logical) (bare after) e (bare (m :: rest)) ∧
        Program.parse (bracketBetween source t m) = .ok q := by
  obtain ⟨ls, ⟨ts, hts, rfl⟩, hall⟩ := Grammar.parsesAll_of_parse h
  obtain rfl : ts = before ++ t :: after := by
    rw [hts] at hlex
    exact hlex
  rw [map_unnested, bare, List.map_append] at hall
  have hbare : Grammar.ParsesAll (bare before ++ t.toLexeme.unnested :: bare after) p.exprs := hall
  obtain ⟨es, hblanks, ⟨e, mid, rest, hsplit, hrest, hbrackets⟩, operand, behind, hoperand,
    hsame⟩ := hbare.insert_blanks ht
  obtain ⟨u, ls, hu, hne, hlexes, hls⟩ := lexes_insertBehind hts ht hgap
  have hiff : (⟨es⟩ : Program) = p ↔ Grammar.Closed behind := by
    rw [← hsame]
    exact ⟨congrArg Program.exprs, congrArg Program.mk⟩
  obtain ⟨mid, m, rest, rfl, rfl, rfl, hmid⟩ := exists_token hts hsplit hrest
  obtain ⟨ls', hlexes', hls'⟩ := lexes_bracketBetween hts ht hmid
  refine ⟨⟨es⟩, ?_, ⟨operand, behind, hoperand, hiff⟩, fun hassign => ?_, e, mid, m, rest, rfl,
    ?_, ?_⟩
  · apply Grammar.parse_of_parsesAll hlexes
    rw [hls]
    exact hblanks u hu hne
  · exact hiff.2 (hoperand.closed hassign)
  · rwa [hsplit]
  · apply Grammar.parse_of_parsesAll hlexes'
    rwa [hls']

/-- The last factor of a product may stand on a line of its own. -/
theorem Program.parse_insertBehind_product :
    Program.parse "x = a *# times\n b".toList = .ok
      ⟨[.binary .assignment (.symbol "x") (.binary .multiply (.symbol "a") (.symbol "b"))]⟩ := by
  have hparse : Program.parse "x = a * b".toList = .ok
      ⟨[.binary .assignment (.symbol "x") (.binary .multiply (.symbol "a") (.symbol "b"))]⟩ := by
    cbv
  have hlex : (lex "x = a * b".toList).1 =
      [{ Lexeme.plain .identifier ['x'] with pos := ⟨1, 1, 0⟩ },
        { Lexeme.plain .operator ['='] with pos := ⟨1, 3, 2⟩ },
        { Lexeme.plain .identifier ['a'] with pos := ⟨1, 5, 4⟩ }] ++
        { Lexeme.plain .operator ['*'] with pos := ⟨1, 7, 6⟩ } ::
        [{ Lexeme.plain .identifier ['b'] with pos := ⟨1, 9, 8⟩ },
          { Lexeme.eof with pos := ⟨1, 10, 9⟩ }] := by decide +kernel
  have hgap : IsBreak ('#' :: " times".toList ++ ['\n']) := .comment (by decide)
  obtain ⟨q, hq, ⟨operand, behind, hoperand, hsame⟩, -⟩ :=
    parse_insertBehind hparse hlex rfl hgap
  have hclosed : Grammar.Closed behind := by
    change Grammar.Parses .factor _ operand behind at hoperand
    cases hoperand with
    | name _ _ _ =>
      rintro l ⟨⟩
      decide
    | assignment _ ho => cases ho
    | call _ ho => cases ho
    | index _ ho => cases ho
    | _ hk => cases hk
  rw [hsame.2 hclosed] at hq
  exact hq

/-- A line break behind an operator may regroup an expression. -/
theorem Program.parse_insertBehind_regroups :
    ∃ p t, Program.parse "a * b + c".toList = .ok p ∧ t ∈ (lex "a * b + c".toList).1 ∧
      t.kind = .operator ∧ Program.parse (insertBehind "a * b + c".toList t ['\n']) ≠ .ok p := by
  refine ⟨⟨[.binary .plus (.binary .multiply (.symbol "a") (.symbol "b")) (.symbol "c")]⟩,
    { Lexeme.plain .operator ['*'] with pos := ⟨1, 3, 2⟩ }, by cbv, by decide +kernel, rfl, ?_⟩
  have hbroken : Program.parse "a *\n b + c".toList = .ok
      ⟨[.binary .multiply (.symbol "a") (.binary .plus (.symbol "b") (.symbol "c"))]⟩ := by
    cbv
  have htext : insertBehind "a * b + c".toList
      { Lexeme.plain .operator ['*'] with pos := ⟨1, 3, 2⟩ } ['\n'] = "a *\n b + c".toList := by
    decide +kernel
  rw [htext, hbroken]
  intro h
  cases h

end Reckon
