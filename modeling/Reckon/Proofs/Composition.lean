import Reckon.Proofs.Insertion
import Reckon.Proofs.Simulation

namespace Reckon

section Shift

variable (lines chars : Int)

def Position.shift (p : Position) : Position := ⟨p.line + lines, p.column, p.offset + chars⟩

def Token.shift (t : Token) : Token := { t with pos := t.pos.shift lines chars }

def LexError.shift (e : LexError) : LexError := { e with pos := e.pos.shift lines chars }

def Scanner.shift (s : Scanner) : Scanner := { s with pos := s.pos.shift lines chars }

def Lexer.shift (l : Lexer) : Lexer := { scanner := l.scanner.shift lines chars }

def Lexer.shiftResult : Lexed → Lexed
  | .ok t => .ok (t.shift lines chars)
  | .error e => .error (e.shift lines chars)

theorem Position.shift_next (p : Position) (c : Char) :
    (p.shift lines chars).next c = (p.next c).shift lines chars := by
  unfold next shift
  split <;> simp <;> omega

theorem Position.shift_advance (p : Position) (cs : List Char) :
    (p.shift lines chars).advance cs = (p.advance cs).shift lines chars := by
  induction cs generalizing p with
  | nil => rfl
  | cons c cs ih =>
    rw [advance, List.foldl_cons, shift_next]
    exact ih (p.next c)

theorem Scanner.shift_next (s : Scanner) :
    (s.shift lines chars).next =
      (Lexer.shiftResult lines chars s.next.1, s.next.2.shift lines chars) := by
  have hskip : (s.shift lines chars).skipGap = s.skipGap.shift lines chars := by
    simp only [skipGap, shift, Position.shift_advance]
  unfold next
  rw [hskip]
  dsimp only [shift]
  split
  · rfl
  case h_2 c cs _ =>
    rw [Position.shift_advance]
    split <;> rfl

theorem Lexer.shift_next {l : Lexer} (hp : l.peeked = none) :
    (l.shift lines chars).next =
      (shiftResult lines chars l.next.1, l.next.2.shift lines chars) := by
  simp only [next, shift, hp, Scanner.shift_next]

namespace Cursor

/-- The same token and the same source to come, all of it moved. -/
structure Shifted (c d : Cursor) : Prop where
  current : d.current = c.current.shift lines chars
  lexer : d.lexer = c.lexer.shift lines chars
  peeked : c.lexer.peeked = none

structure Moved (f g : ParseFailure) : Prop where
  fault : g.error.fault = f.error.fault
  pos : g.error.pos = f.error.pos.shift lines chars

theorem shifted_next {l : Lexer} (hp : l.peeked = none) :
    (∃ c d : Cursor, l.next = (.ok c.current, c.lexer) ∧
      (l.shift lines chars).next = (.ok d.current, d.lexer) ∧ Shifted lines chars c d) ∨
    ∃ e l', l.next = (.error e, l') ∧
      (l.shift lines chars).next = (.error (e.shift lines chars), l'.shift lines chars) := by
  have hshift := Lexer.shift_next lines chars hp
  rcases hn : l.next with ⟨e | t, l'⟩
  · rw [hn] at hshift
    exact .inr ⟨e, l', rfl, hshift⟩
  · obtain ⟨-, hpeek⟩ := Lexer.scanner_next hp hn
    rw [hn] at hshift
    exact .inl ⟨⟨t, l'⟩, ⟨_, _⟩, rfl, hshift, rfl, rfl, hpeek⟩

theorem shifted_mirrors : Mirrors (Shifted lines chars) (Moved lines chars) where
  lexeme h := by
    rw [h.current]
    rfl
  next {c d} h hc := by
    have hd : d.current.kind ≠ .eof := by
      rw [h.current]
      exact hc
    rcases shifted_next lines chars h.peeked with ⟨c', d', hn, hn', hr⟩ | ⟨e, l', hn, hn'⟩
    · rw [← h.lexer] at hn'
      exact .inl ⟨c', d', ⟨hc, hn⟩, ⟨hd, hn'⟩, hr⟩
    · rw [← h.lexer] at hn'
      exact .inr ⟨e, l', _, _, hn, hn', rfl, rfl⟩
  fault {c d f g} h htwins := by
    refine ⟨htwins.fault, ?_⟩
    rw [htwins.right.pos, htwins.left.pos, h.current]
    rfl

end Cursor

end Shift

def Token.newline (pos : Position) : Token := { Lexeme.plain .eol ['\n'] with pos }

namespace Scanner

variable {s s' : Scanner} {t : Token}

def extend (s : Scanner) (more : List Char) : Scanner :=
  { s with rest := s.rest ++ '\n' :: more }

def stop (s : Scanner) : Position := s.pos.advance s.rest

theorem next_extend (h : s.next = (.ok t, s')) (ht : t.kind ≠ .eof) (more : List Char) :
    (s.extend more).next = (.ok t, s'.extend more) ∧ s'.stop = s.stop := by
  obtain ⟨gap, c, cs, hrest, hgap, hc, hread, hpos, hpos'⟩ := next_eq_ok h ht
  have hfollow : MayFollow t.toLexeme s'.rest (s'.rest ++ '\n' :: more) := by
    cases s'.rest with
    | nil => exact .newline more
    | cons c cs => exact .alike rfl
  have hnext := next_of_readLexeme hc (readLexeme_frame hread hfollow) t.pos
  have hextend : s.extend more =
      ⟨gap ++ c :: (cs ++ (s'.rest ++ '\n' :: more)), s.pos, s.nesting⟩ := by
    simp [extend, hrest]
  constructor
  · rw [hextend, next_gap hgap, ← hpos]
    refine hnext.trans (Prod.ext rfl ?_)
    rw [extend, hpos', Position.advance_append, ← hpos]
  · rw [stop, stop, hpos', hrest, ← Position.advance_append]

theorem next_extend_eof (h : s.next = (.ok t, s')) (ht : t.kind = .eof) (more : List Char) :
    (s.extend more).next =
        (.ok (.newline s.stop), ⟨more, s.stop.next '\n', s.nesting⟩) ∧
      s'.nesting = s.nesting := by
  obtain ⟨-, hgap⟩ := next_eof h ht
  have hnests := (next_nests h).of_plain (by rw [ht]; decide)
  have hread : readLexeme s.nesting '\n' more =
      ⟨.ok (.plain .eol ['\n']), s.nesting, ['\n'], more⟩ := rfl
  refine ⟨?_, hnests⟩
  rw [extend, next_gap hgap]
  exact next_of_readLexeme rfl hread _

end Scanner

namespace Cursor

/-- The same token where the source goes on with a line break and more; at the end of the source,
the line break. -/
inductive Extends (more : List Char) (stop : Position) : Cursor → Cursor → Prop where
  | within {t : Token} {s : Scanner} : t.kind ≠ .eof → s.stop = stop →
    Extends more stop ⟨t, { scanner := s }⟩ ⟨t, { scanner := s.extend more }⟩
  | behind {t : Token} {s : Scanner} : t.kind = .eof →
    Extends more stop ⟨t, { scanner := s }⟩
      ⟨.newline stop, { scanner := ⟨more, stop.next '\n', s.nesting⟩ }⟩

variable {more : List Char} {stop : Position} {c c' d : Cursor} {u : List Lexeme}

theorem extends_of_next {s s' : Scanner} {t : Token} (h : s.next = (.ok t, s'))
    (more : List Char) : ∃ d : Cursor, d.lexer.peeked = none ∧
      (s.extend more).next = (.ok d.current, d.lexer.scanner) ∧
      Extends more s.stop ⟨t, { scanner := s' }⟩ d := by
  by_cases ht : t.kind = .eof
  · obtain ⟨hnext, hnesting⟩ := Scanner.next_extend_eof h ht more
    rw [← hnesting] at hnext
    exact ⟨_, rfl, hnext, .behind ht⟩
  · obtain ⟨hnext, hstop⟩ := Scanner.next_extend h ht more
    exact ⟨⟨t, { scanner := s'.extend more }⟩, rfl, hnext, .within ht hstop⟩

namespace Extends

theorem current_eq (h : Extends more stop c c') (hc : c.current.kind ≠ .eof) :
    c'.current = c.current := by
  cases h with
  | within => rfl
  | behind hk => exact absurd hk hc

theorem current_cases (h : Extends more stop c c') :
    c'.current = c.current ∨ c.current.kind = .eof ∧ c'.current.kind = .eol := by
  cases h with
  | within => exact .inl rfl
  | behind hk => exact .inr ⟨hk, rfl⟩

theorem eq_of_eof (h : Extends more stop c c') (hc : c.current.kind = .eof) :
    c' = ⟨.newline stop, { scanner := ⟨more, stop.next '\n', c.lexer.scanner.nesting⟩ }⟩ := by
  cases h with
  | within hk => exact absurd hc hk
  | behind => rfl

theorem opening {a : Char} (h : Extends more stop c c') (ho : c.current.isOpening a) :
    c'.current = c.current :=
  h.current_eq (by rw [kind_of_isOpening ho]; decide)

theorem step (h : Extends more stop c c') (hs : c.Step d) :
    ∃ d', c'.Step d' ∧ Extends more stop d d' := by
  cases h with
  | behind hk => exact absurd hk hs.1
  | within hk hstop =>
    obtain ⟨hnext, hpeek⟩ := hs.scanner rfl
    obtain ⟨d', hpeek', hnext', hd⟩ := extends_of_next hnext more
    obtain ⟨t, s, peeked⟩ := d
    obtain ⟨t', s', peeked'⟩ := d'
    cases hpeek
    cases hpeek'
    rw [hstop] at hd
    exact ⟨_, step_of_scanner hk rfl hnext', hd⟩

theorem steps (h : Extends more stop c c') (hs : c.Steps u d) :
    ∃ d', c'.Steps u d' ∧ Extends more stop d d' := by
  induction hs generalizing c' with
  | refl => exact ⟨c', .refl c', h⟩
  | cons hstep _ ih =>
    obtain ⟨d', hstep', hd⟩ := h.step hstep
    obtain ⟨e', hsteps, he⟩ := ih hd
    rw [← h.current_eq hstep.1]
    exact ⟨e', .cons hstep' hsteps, he⟩

theorem skips (h : Extends more stop c c') (hs : c.Skips d) (hd : d.current.kind ≠ .eof) :
    ∃ d', c'.Skips d' ∧ Extends more stop d d' := by
  obtain ⟨⟨u, hu, hsteps⟩, hblank⟩ := hs
  obtain ⟨d', hsteps', hd'⟩ := h.steps hsteps
  rw [← hd'.current_eq hd] at hblank
  exact ⟨d', ⟨⟨u, hu, hsteps'⟩, hblank⟩, hd'⟩

theorem stops {t : Tier} (h : Extends more stop c c') (hs : t.Stops c.current.toLexeme) :
    t.Stops c'.current.toLexeme := by
  rcases h.current_cases with hc | ⟨-, hk⟩
  · rwa [hc]
  · intro hop
    cases hk.symm.trans hop

theorem endsOperand (h : Extends more stop c c')
    (hend : Cursor.endsOperand c.current.toLexeme) : Cursor.endsOperand c'.current.toLexeme := by
  rcases h.current_cases with hc | ⟨-, hk⟩
  · rwa [hc]
  · simp [Cursor.endsOperand, hk]

theorem not_assigns (h : Extends more stop c c') (hc : ¬ c.current.isOperator "=") :
    ¬ c'.current.isOperator "=" := by
  rcases h.current_cases with heq | ⟨-, hk⟩
  · rwa [heq]
  · simp [Lexeme.isOperator, hk]

theorem endsStatement (h : Extends more stop c c')
    (hend : Reckon.endsStatement c.current.toLexeme) :
    Reckon.endsStatement c'.current.toLexeme := by
  rcases h.current_cases with hc | ⟨-, hk⟩
  · rwa [hc]
  · simp [Reckon.endsStatement, hk]

end Extends

theorem kind_ne_of_reads {t : Tier} {e : Expr} (h : Reads (.tier t) c e d) :
    c.current.kind ≠ .eof := by
  obtain ⟨hlt, -⟩ := h.yields
  obtain ⟨w, hs, -⟩ := Grammar.derived_of_reads h
  cases hs with
  | refl => exact absurd hlt (Nat.lt_irrefl _)
  | cons hstep => exact hstep.1

theorem Reads.extend {p : Part} {e : Expr} (h : Reads p c e d) (hc : Extends more stop c c') :
    ∃ d', Reads p c' e d' ∧ Extends more stop d d' := by
  -- A token that is taken is the same in both sources. Only a lexeme that is looked at and left can
  -- be the end of the source, and where that may stand, so may a line break.
  induction h generalizing c' with
  | tier _ _ ihl ihc =>
    obtain ⟨d', hleft, hd⟩ := ihl hc
    obtain ⟨f', hchain, hf⟩ := ihc hd
    exact ⟨f', .tier hleft hchain, hf⟩
  | stop hs => exact ⟨c', .stop (hc.stops hs), hc⟩
  | more hk hb ht hs _ _ ihr iha =>
    obtain ⟨d', hs', hd⟩ := hc.step hs
    obtain ⟨e', hright, he⟩ := ihr hd
    obtain ⟨f', hall, hf⟩ := iha he
    rw [← hc.current_eq hs.1] at hk hb
    exact ⟨f', .more hk hb ht hs' hright hall, hf⟩
  | numeral hk hl hs =>
    obtain ⟨d', hs', hd⟩ := hc.step hs
    rw [← hc.current_eq hs.1] at hk hl
    exact ⟨d', .numeral hk hl hs', hd⟩
  | string hk hs =>
    obtain ⟨d', hs', hd⟩ := hc.step hs
    rw [← hc.current_eq hs.1] at hk ⊢
    exact ⟨d', .string hk hs', hd⟩
  | constant hk hword hs =>
    obtain ⟨d', hs', hd⟩ := hc.step hs
    rw [← hc.current_eq hs.1] at hk hword
    exact ⟨d', .constant hk hword hs', hd⟩
  | sign hk hsign hs _ ih =>
    obtain ⟨d', hs', hd⟩ := hc.step hs
    obtain ⟨e', hoperand, he⟩ := ih hd
    rw [← hc.current_eq hs.1] at hk hsign
    exact ⟨e', .sign hk hsign hs' hoperand, he⟩
  | group ho _ ih =>
    obtain ⟨d', hinner, hd⟩ := ih hc
    rw [← hc.opening ho] at ho
    exact ⟨d', .group ho hinner, hd⟩
  | name hk hs hn hend =>
    obtain ⟨d', hs', hd⟩ := hc.step hs
    rw [← hc.current_eq hs.1] at hk ⊢
    exact ⟨d', .name hk hs' (hd.not_assigns hn) (hd.endsOperand hend), hd⟩
  | assignment hk hs ho hs₂ _ ih =>
    obtain ⟨d', hs', hd⟩ := hc.step hs
    obtain ⟨e', hs₂', he⟩ := hd.step hs₂
    obtain ⟨f', hvalue, hf⟩ := ih he
    rw [← hc.current_eq hs.1] at hk ⊢
    rw [← hd.current_eq hs₂.1] at ho
    exact ⟨f', .assignment hk hs' ho hs₂' hvalue, hf⟩
  | call hk hs ho _ ih =>
    obtain ⟨d', hs', hd⟩ := hc.step hs
    obtain ⟨e', harg, he⟩ := ih hd
    rw [← hc.current_eq hs.1] at hk ⊢
    rw [← hd.opening ho] at ho
    exact ⟨e', .call hk hs' ho harg, he⟩
  | index hk hs ho _ ih =>
    obtain ⟨d', hs', hd⟩ := hc.step hs
    obtain ⟨e', harg, he⟩ := ih hd
    rw [← hc.current_eq hs.1] at hk ⊢
    rw [← hd.opening ho] at ho
    exact ⟨e', .index hk hs' ho harg, he⟩
  | command hk hword hor hs ho _ hend ih =>
    obtain ⟨d', hs', hd⟩ := hc.step hs
    obtain ⟨e', harg, he⟩ := ih hd
    rw [← hc.current_eq hs.1] at hk hword
    rw [← hd.opening ho] at ho
    exact ⟨e', .command hk hword hor hs' ho harg (he.endsOperand hend), he⟩
  | block hk hword hor hs ho _ hb _ ih ih' =>
    obtain ⟨d', hs', hd⟩ := hc.step hs
    obtain ⟨e', harg, he⟩ := ih hd
    obtain ⟨f', hbody, hf⟩ := ih' he
    rw [← hc.current_eq hs.1] at hk hword
    rw [← hd.opening ho] at ho
    rw [← he.opening hb] at hb
    exact ⟨f', .block hk hword hor hs' ho harg hb hbody, hf⟩
  | blank hb hs _ ih =>
    obtain ⟨d', hs', hd⟩ := hc.step hs
    obtain ⟨f', hrest, hf⟩ := ih hd
    rw [← hc.current_eq hs.1] at hb
    exact ⟨f', .blank hb hs' hrest, hf⟩
  | delimited hs hskip hinner hskip' hclose hs₂ ih =>
    obtain ⟨d', hs', hd⟩ := hc.step hs
    obtain ⟨e', hskips, he⟩ := hd.skips hskip (kind_ne_of_reads hinner)
    obtain ⟨f', hinner', hf⟩ := ih he
    obtain ⟨g', hskips', hg⟩ := hf.skips hskip' hs₂.1
    obtain ⟨i', hs₂', hi⟩ := hg.step hs₂
    rw [← hg.current_eq hs₂.1, ← hc.current_eq hs.1] at hclose
    exact ⟨i', .delimited hs' hskips hinner' hskips' hclose hs₂', hi⟩

theorem parseStatements_step (hb : c.current.isBlank) (hs : c.Step d) :
    parseStatements c = parseStatements d := by
  obtain ⟨_, ht⟩ := hs.take
  rw [parseStatements.eq_def c, parseStatements.eq_def d, note_bind, note_bind,
    skipBlank.eq_def c, dif_pos hb, ht]
  cases hd : d.skipBlank with
  | error f =>
    simp only [bind, Except.bind]
    rw [hd]
  | ok r =>
    simp only [bind, Except.bind]
    rw [hd]
    rfl

theorem parseStatements_of_error (hb : c.current.isBlank) {e : LexError} {l : Lexer}
    (h : c.lexer.next = (.error e, l)) :
    parseStatements c = .error (lexicalFailure c.current e l) := by
  rw [parseStatements.eq_def, note_bind, skipBlank.eq_def, dif_pos hb, take_of_error _ h]
  rfl

theorem parseStatements_steps (hu : ∀ l ∈ u, l.isBlank) (hs : c.Steps u d) :
    parseStatements c = parseStatements d := by
  induction hs with
  | refl => rfl
  | cons hstep _ ih =>
    obtain ⟨hb, hu⟩ := List.forall_mem_cons.1 hu
    exact (parseStatements_step hb hstep).trans (ih hu)

theorem ReadsAll.extend {es : List Expr} (h : c.ReadsAll es d) (hc : Extends more stop c c') :
    ∃ d', d.current.kind = .eof ∧ Extends more stop d d' ∧
      c'.parseStatements =
        Except.map (fun r : List Expr × Lexer => (es ++ r.1, r.2)) d'.parseStatements := by
  induction h generalizing c' with
  | done hskip hk =>
    obtain ⟨⟨u, hu, hsteps⟩, -⟩ := hskip
    obtain ⟨d', hsteps', hd⟩ := hc.steps hsteps
    refine ⟨d', hk, hd, ?_⟩
    rw [parseStatements_steps hu hsteps']
    cases d'.parseStatements <;> rfl
  | cons hskip hk he hend _ ih =>
    obtain ⟨d', hskip', hd⟩ := hc.skips hskip hk
    obtain ⟨f', he', hf⟩ := he.extend hd
    obtain ⟨g', hk', hg, hrest⟩ := ih hf
    refine ⟨g', hk', hg, ?_⟩
    obtain ⟨_, hs⟩ := hskip'.skipBlank
    obtain ⟨_, hp⟩ := he'.yields
    rw [← hd.current_eq hk] at hk
    rw [Cursor.parseStatements.eq_def, note_bind, hs]
    simp only [bind, Except.bind]
    rw [if_neg hk, hp]
    simp only
    rw [if_pos (hf.endsStatement hend), hrest]
    cases g'.parseStatements <;> rfl

/-- Behind a line break a source is parsed as if it stood alone, with every place moved. -/
theorem alike_newline (more : List Char) (pos : Position) (lines chars : Int) :
    Alike (fun a b => a.1 = b.1) (Moved lines chars)
      (Lexer.ofSource more).parseStatements
      (parseStatements ⟨.newline pos, (Lexer.ofSource more).shift lines chars⟩) := by
  have hblank : (Token.newline pos).isBlank := rfl
  have hpeek : (Lexer.ofSource more).peeked = none := rfl
  rcases shifted_next lines chars hpeek with ⟨c, d, hn, hn', hr⟩ | ⟨e, l, hn, hn'⟩
  · have hfirst : ofLexer (.ofSource more) = .ok c := ofLexer_of_ok hn
    have hstep : Step ⟨.newline pos, (Lexer.ofSource more).shift lines chars⟩ d :=
      ⟨kind_ne_of_isBlank hblank, hn'⟩
    rw [Lexer.parseStatements, hfirst, parseStatements_step hblank hstep]
    exact (shifted_mirrors lines chars).parseStatements hr
  · have hfirst : ofLexer (.ofSource more) = .error (lexicalFailure .zero e l) :=
      ofLexer_of_error hn
    rw [Lexer.parseStatements, hfirst, parseStatements_of_error hblank hn']
    exact .error ⟨rfl, rfl⟩

theorem ReadsAll.at {es : List Expr} {n : Nesting} (h : c.ReadsAll es d) (hc : c.At n) :
    d.At n := by
  induction h with
  | done hskip =>
    obtain ⟨⟨u, hu, hsteps⟩, -⟩ := hskip
    exact Grammar.Balanced.blanks hu _ _ _ hc hsteps
  | cons hskip _ he _ _ ih =>
    obtain ⟨⟨u, hu, hsteps⟩, -⟩ := hskip
    obtain ⟨w, hread, hderived⟩ := Grammar.derived_of_reads he
    have hd := Grammar.Balanced.blanks hu _ _ _ hc hsteps
    exact ih (Grammar.Derives.balanced hderived _ _ _ hd hread)

end Cursor

theorem Position.line_advance (p : Position) (cs : List Char) :
    (p.advance cs).line = p.line + cs.count '\n' := by
  induction cs generalizing p with
  | nil => simp [advance]
  | cons c cs ih =>
    rw [advance, List.foldl_cons, ← advance, ih, next]
    by_cases hc : c = '\n'
    · rw [if_pos hc, hc, List.count_cons_self]
      simp only
      omega
    · rw [if_neg hc, List.count_cons_of_ne hc]

theorem Position.next_advance_start (source : List Char) :
    (start.advance source).next '\n' =
      start.shift (source.count '\n' + 1) (source.length + 1) := by
  have hline := line_advance start source
  have hoffset := offset_advance start source
  rw [next, if_pos rfl, hline, hoffset, shift]
  simp [start]
  omega

theorem Program.parseStatements_newline {source : List Char} {p : Program}
    (h : Program.parse source = .ok p) (more : List Char) :
    (Lexer.ofSource (source ++ '\n' :: more)).parseStatements =
      Except.map (fun r : List Expr × Lexer => (p.exprs ++ r.1, r.2))
        (Cursor.parseStatements ⟨.newline (Position.start.advance source),
          (Lexer.ofSource more).shift (source.count '\n' + 1) (source.length + 1)⟩) := by
  obtain ⟨⟨t, s, _⟩, d, ⟨⟨⟩, hnext⟩, hall⟩ := Program.parse_eq_ok.1 h
  obtain ⟨c', hpeek, hnext', hc⟩ := Cursor.extends_of_next hnext more
  have hfirst : Cursor.ofLexer (.ofSource (source ++ '\n' :: more)) = .ok c' :=
    Cursor.ofLexer_eq_ok.2 ⟨hpeek, hnext'⟩
  obtain ⟨d', hk, hd, hparse⟩ := hall.extend hc
  have hat := hall.at ⟨rfl, Scanner.next_nests hnext⟩
  have hnesting : d.lexer.scanner.nesting = {} := hat.nests.of_plain (by rw [hk]; decide)
  have hstop : Scanner.stop { rest := source } = Position.start.advance source := rfl
  rw [hd.eq_of_eof hk, hnesting, hstop, Position.next_advance_start] at hparse
  rw [Lexer.parseStatements, hfirst]
  exact hparse

theorem Program.alike_parse {s₁ : List Char} {p₁ : Program} (h : Program.parse s₁ = .ok p₁)
    (s₂ : List Char) :
    Alike (fun p₂ p => p = ⟨p₁.exprs ++ p₂.exprs⟩)
      (fun error error' => error'.fault = error.fault ∧
        error'.pos = error.pos.shift (s₁.count '\n' + 1) (s₁.length + 1))
      (Program.parse s₂) (Program.parse (s₁ ++ '\n' :: s₂)) := by
  have halike := Cursor.alike_newline s₂ (Position.start.advance s₁) (s₁.count '\n' + 1)
    (s₁.length + 1)
  have hwhole := parseStatements_newline h s₂
  cases hx : (Lexer.ofSource s₂).parseStatements with
  | ok r =>
    obtain ⟨r', hy, hr⟩ := halike.exists_ok hx
    rw [hy] at hwhole
    rw [parse_of_ok hx, parse_of_ok hwhole, hr]
    exact .ok rfl
  | error f =>
    obtain ⟨g, hy, hfg⟩ := halike.exists_error hx
    rw [hy] at hwhole
    rw [parse_of_error hx, parse_of_error hwhole]
    exact .error ⟨hfg.fault, hfg.pos⟩

/-- A source that is parsed, a line break and any other source: the other source is parsed as if it
stood alone, and its errors are the same at the moved place. -/
theorem Program.parse_newline {s₁ : List Char} {p₁ : Program} (h : Program.parse s₁ = .ok p₁)
    (s₂ : List Char) :
    ((∃ p, Program.parse (s₁ ++ '\n' :: s₂) = .ok p) ↔ ∃ p₂, Program.parse s₂ = .ok p₂) ∧
    (∀ p₂, Program.parse s₂ = .ok p₂ →
      Program.parse (s₁ ++ '\n' :: s₂) = .ok ⟨p₁.exprs ++ p₂.exprs⟩) ∧
    ∀ error, Program.parse s₂ = .error error →
      ∃ error', Program.parse (s₁ ++ '\n' :: s₂) = .error error' ∧
        error'.fault = error.fault ∧
        error'.pos = error.pos.shift (s₁.count '\n' + 1) (s₁.length + 1) := by
  have halike := alike_parse h s₂
  refine ⟨⟨?_, ?_⟩, ?_, ?_⟩
  · rintro ⟨p, hp⟩
    cases hs : Program.parse s₂ with
    | ok p₂ => exact ⟨p₂, rfl⟩
    | error error =>
      obtain ⟨error', he, -⟩ := halike.exists_error hs
      cases hp.symm.trans he
  · rintro ⟨p₂, hp₂⟩
    obtain ⟨p, hp, -⟩ := halike.exists_ok hp₂
    exact ⟨p, hp⟩
  · intro p₂ hp₂
    obtain ⟨_, hp, rfl⟩ := halike.exists_ok hp₂
    exact hp
  · intro error he
    exact halike.exists_error he

/-- Behind a comment that ended at the end of the source: a statement, and a missing operand. -/
theorem Program.parse_newline_comment :
    Program.parse "x # y\nz".toList = .ok ⟨[.symbol "x", .symbol "z"]⟩ ∧
      ∃ error, Program.parse "x # y\n(a + )".toList = .error error ∧
        error.fault = .factor ∧ error.pos = ⟨2, 6, 11⟩ := by
  have hfirst : Program.parse "x # y".toList = .ok ⟨[.symbol "x"]⟩ := by cbv
  have hsecond : Program.parse "z".toList = .ok ⟨[.symbol "z"]⟩ := by cbv
  have hfails : Program.parse "(a + )".toList = .error
      { fault := .factor, production := "factor", expected := "an operand",
        found := { Lexeme.closing ')' 0 with pos := ⟨1, 6, 5⟩ }, pos := ⟨1, 6, 5⟩ } := by
    cbv
  have hplace : Position.shift (("x # y".toList.count '\n' : Int) + 1) ("x # y".toList.length + 1)
      ⟨1, 6, 5⟩ = ⟨2, 6, 11⟩ := by decide
  obtain ⟨error, herror, hfault, hpos⟩ := (parse_newline hfirst _).2.2 _ hfails
  exact ⟨(parse_newline hfirst _).2.1 _ hsecond, error, herror, hfault, hpos.trans hplace⟩

end Reckon
