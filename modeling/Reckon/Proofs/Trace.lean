import Reckon.Proofs.Simulation

namespace Reckon

structure Traced (α : Type) where
  log : List Event
  result : Except ParseFailure α

namespace Traced

instance : Monad Traced where
  pure a := ⟨[], .ok a⟩
  bind x f :=
    match x.result with
    | .ok a => ⟨x.log ++ (f a).log, (f a).result⟩
    | .error failure => ⟨x.log, .error failure⟩

instance : Watch Traced where
  stop failure := ⟨[], .error failure⟩
  note event := ⟨[event], .ok ()⟩

def answer (x : Traced (List Expr × Lexer)) : Except ParseError Program × Lexer :=
  match x.result with
  | .ok (exprs, l) => (.ok ⟨exprs⟩, l)
  | .error failure => (.error failure.error, failure.lexer)

variable {α β : Type} {x : Traced α} {f : α → Traced β}

theorem bind_ok {a : α} (h : x.result = .ok a) :
    x >>= f = ⟨x.log ++ (f a).log, (f a).result⟩ := by
  obtain ⟨log, result⟩ := x
  cases h
  rfl

theorem bind_error {failure : ParseFailure} (h : x.result = .error failure) :
    x >>= f = ⟨x.log, .error failure⟩ := by
  obtain ⟨log, result⟩ := x
  cases h
  rfl

theorem note_bind (event : Event) (x : Traced α) :
    (do Watch.note event; x) = ⟨event :: x.log, x.result⟩ := rfl

theorem answer_of_ok {x : Traced (List Expr × Lexer)} {exprs : List Expr} {l : Lexer}
    (h : x.result = .ok (exprs, l)) : x.answer = (.ok ⟨exprs⟩, l) := by
  rw [answer, h]

theorem answer_of_error {x : Traced (List Expr × Lexer)} {failure : ParseFailure}
    (h : x.result = .error failure) : x.answer = (.error failure.error, failure.lexer) := by
  rw [answer, h]

end Traced

namespace Cursor

theorem result_take (c : Cursor) (h : c.current.kind ≠ .eof) :
    (c.take h : Traced (Smaller c)).result = c.take h := by
  rcases hn : c.lexer.next with ⟨e | t, l⟩
  · rw [take_eq_of_error h hn, take_eq_of_error h hn]
    rfl
  · have hs : c.Step ⟨t, l⟩ := ⟨h, hn⟩
    rw [hs.take_eq, hs.take_eq]
    rfl

/-- Apart from the log a parser returns what it returns without one. -/
theorem simulates_result :
    Simulates (m := Traced) (n := Except ParseFailure) Eq
      (fun V x y => Alike V Eq x.result y) where
  pure hab := .ok hab
  bind {_ _ _ _ _ _ x _ f _} hxy hfg := by
    generalize hr : x.result = r at hxy
    cases hxy with
    | ok hab =>
      rw [Traced.bind_ok hr]
      exact hfg _ _ hab
    | error he =>
      rw [Traced.bind_error hr]
      exact .error he
  note _ _ := .ok trivial
  lexeme hcd := by rw [hcd]
  take {c d} hcd hc hd := by
    subst hcd
    rw [result_take]
    cases c.take hc with
    | ok a => exact .ok rfl
    | error failure => exact .error rfl
  fault hcd htwins := .error (htwins.same hcd)

theorem step_of_result {c d : Cursor} {h : c.current.kind ≠ .eof} {hd : d.size < c.size}
    (ht : (c.take h : Traced (Smaller c)).result = .ok ⟨d, hd⟩) : c.Step d := by
  rw [result_take] at ht
  exact (meets_take h).of_ok ht

theorem skips_of_result {c d : Cursor} {hd : d.size ≤ c.size}
    (h : (c.skipBlank : Traced _).result = .ok ⟨d, hd⟩) : c.Skips d := by
  obtain ⟨⟨d', _⟩, hskip, rfl⟩ := (simulates_result.skipBlank rfl).exists_ok h
  exact (meets_skipBlank c).of_ok hskip

theorem reads_of_result {t : Tier} {c : Cursor} {r : Parsed c}
    (h : (parseTier (some t) c : Traced _).result = .ok r) :
    Reads (.tier t) c r.expr r.after := by
  obtain ⟨r', htier, hexpr, hafter⟩ := (simulates_result.parseTier rfl _).exists_ok h
  rw [hexpr, hafter]
  exact (meets_parseTier (some t) c).of_ok htier

end Cursor

namespace Lexer

def traceParse (l : Lexer) : Traced (List Expr × Lexer) := l.parseStatements

/-- Apart from the log this is `parse`. -/
theorem answer_traceParse (l : Lexer) : l.traceParse.answer = l.parse := by
  have hfirst : Alike Eq Eq (Cursor.ofLexer l : Traced Cursor).result (Cursor.ofLexer l) := by
    rcases hn : l.next with ⟨e | t, l'⟩
    · rw [Cursor.ofLexer_of_error hn, Cursor.ofLexer_of_error hn]
      exact .error rfl
    · rw [Cursor.ofLexer_of_ok hn, Cursor.ofLexer_of_ok hn]
      exact .ok rfl
  have hparse : Alike _ Eq l.traceParse.result l.parseStatements :=
    Cursor.simulates_result.bind hfirst fun _ _ hc => Cursor.simulates_result.parseStatements hc
  cases hr : l.traceParse.result with
  | ok a =>
    obtain ⟨b, hb, hexprs, c, _, rfl, hl, hl'⟩ := hparse.exists_ok hr
    rw [Traced.answer_of_ok hr, parse_of_ok hb, hexprs, hl, hl']
  | error failure =>
    obtain ⟨_, hfailure, rfl⟩ := hparse.exists_error hr
    rw [Traced.answer_of_error hr, parse_of_error hfailure]

end Lexer

end Reckon
