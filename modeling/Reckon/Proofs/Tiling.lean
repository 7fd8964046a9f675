import Mathlib.Data.List.TakeWhile
import Reckon.Proofs.Lexing

namespace Reckon

def Lexed.pos : Lexed → Position
  | .ok t => t.pos
  | .error e => e.pos

def Lexed.face : Lexed → Except LexFault Lexeme
  | .ok t => .ok t.toLexeme
  | .error e => .error e.fault

def Lexed.isEnd : Lexed → Bool
  | .ok t => t.kind = .eof
  | .error _ => false

/-- What one call takes of a source, white space first, and what it yields. -/
structure Tile where
  gap : List Char
  segment : List Char
  result : Lexed

def Tile.text (p : Tile) : List Char := p.gap ++ p.segment

namespace Scanner

variable {s : Scanner} {c : Char} {cs : List Char}

theorem next_of_end (h : s.rest.dropWhile isGap = []) :
    s.next = (.ok { Lexeme.eof with pos := s.pos.advance s.rest },
      ⟨[], s.pos.advance s.rest, s.nesting⟩) := by
  have hall : ∀ g ∈ s.rest, isGap g := List.dropWhile_eq_nil_iff.1 h
  have htake : s.rest.takeWhile isGap = s.rest := List.takeWhile_eq_self_iff.2 hall
  have hskip : s.skipGap = ⟨[], s.pos.advance s.rest, s.nesting⟩ := by
    simp only [skipGap, h, htake]
  rw [next, hskip]

theorem next_of_start (h : s.rest.dropWhile isGap = c :: cs) :
    let start := s.pos.advance (s.rest.takeWhile isGap)
    let r := readLexeme s.nesting c cs
    Lexed.face s.next.1 = r.result ∧ Lexed.pos s.next.1 = start ∧
      s.next.2 = ⟨r.rest, start.advance r.taken, r.nesting⟩ := by
  intro start r
  have hskip : s.skipGap = ⟨c :: cs, start, s.nesting⟩ := by
    simp only [skipGap, h, start]
  rw [next, hskip]
  cases hr : r.result with
  | ok l => simp [r, hr, Lexed.face, Lexed.pos]
  | error f => simp [r, hr, Lexed.face, Lexed.pos]

end Scanner

namespace Lexer

/-- What some calls for a token yield. An error does not stop them. -/
def results (l : Lexer) : Nat → List Lexed
  | 0 => []
  | n + 1 => l.next.1 :: l.next.2.results n

def resume (l : Lexer) : Nat → Lexer
  | 0 => l
  | n + 1 => l.next.2.resume n

theorem results_add (l : Lexer) (m n : Nat) :
    l.results (m + n) = l.results m ++ (l.resume m).results n := by
  induction m generalizing l with
  | zero => simp [results, resume]
  | succ m ih =>
    rw [Nat.succ_add, results, results, resume, ih, List.cons_append]

theorem resume_succ (l : Lexer) (n : Nat) : l.resume (n + 1) = (l.resume n).next.2 := by
  induction n generalizing l with
  | zero => rfl
  | succ n ih => exact ih l.next.2

/-- A call takes a tile off the source, and does not yield the end. -/
structure Takes (l : Lexer) (p : Tile) (l' : Lexer) : Prop where
  next : l.next = (p.result, l')
  rest : l.scanner.rest = p.text ++ l'.scanner.rest
  gap : ∀ c ∈ p.gap, Scanner.isGap c
  segment : ∃ c cs, p.segment = c :: cs ∧ ¬ Scanner.isGap c
  result : ¬ p.result.isEnd
  start : p.result.pos.offset = l.pos.offset + p.gap.length
  stop : l'.pos.offset = l.pos.offset + p.text.length

/-- A call yields the end, because nothing but white space is left. -/
structure Ends (l : Lexer) (p : Position) : Prop where
  rest : ∀ c ∈ l.scanner.rest, Scanner.isGap c
  next : l.next.1 = .ok { Lexeme.eof with pos := p }
  left : l.next.2.scanner.rest = []
  pos : l.next.2.pos = p
  offset : p.offset = l.pos.offset + l.scanner.rest.length

variable {l l' l'' : Lexer} {p : Tile}

theorem Takes.peeked (h : l.Takes p l') (hp : l.peeked = none) : l'.peeked = none :=
  (scanner_next hp h.next).2

theorem takes_of_start (hp : l.peeked = none) {c : Char} {cs : List Char}
    (h : l.scanner.rest.dropWhile Scanner.isGap = c :: cs) : ∃ p, l.Takes p l.next.2 := by
  obtain ⟨hface, hpos, hafter⟩ := Scanner.next_of_start h
  have hnext : l.next = (l.scanner.next.1, ⟨l.scanner.next.2, none⟩) := by rw [Lexer.next, hp]
  have hsplit := readLexeme_taken_append_rest l.scanner.nesting c cs
  have hne := readLexeme_taken_ne_nil l.scanner.nesting c cs
  obtain ⟨d, ds, htaken⟩ := List.exists_cons_of_ne_nil hne
  have hrest : l.scanner.rest = l.scanner.rest.takeWhile Scanner.isGap ++
      (readLexeme l.scanner.nesting c cs).taken ++ (readLexeme l.scanner.nesting c cs).rest := by
    rw [List.append_assoc, hsplit, ← h, List.takeWhile_append_dropWhile]
  have hd : d = c := by
    rw [htaken] at hsplit
    exact (List.cons.inj hsplit).1
  have hc : ¬ Scanner.isGap c := by
    have hnot := List.head?_dropWhile_not Scanner.isGap l.scanner.rest
    rw [h] at hnot
    simpa using hnot
  refine ⟨⟨l.scanner.rest.takeWhile Scanner.isGap, (readLexeme l.scanner.nesting c cs).taken,
    l.scanner.next.1⟩, ?_⟩
  rw [hnext]
  constructor
  case next => exact hnext
  case rest =>
    rw [hafter]
    exact hrest
  case gap =>
    intro g hg
    exact List.mem_takeWhile_imp hg
  case segment => exact ⟨d, ds, htaken, hd ▸ hc⟩
  case result =>
    cases hr : l.scanner.next.1 with
    | error e => exact Bool.false_ne_true
    | ok t =>
      rw [hr] at hface
      have hkind := (readsAs_of_readLexeme hface.symm).kind_ne
      simpa [Lexed.isEnd] using hkind
  case start =>
    rw [hpos, Position.offset_advance]
    rfl
  case stop =>
    simp only [pos, hafter, Position.offset_advance, Tile.text, List.length_append]
    omega

theorem ends_of_gap (hp : l.peeked = none) (h : l.scanner.rest.dropWhile Scanner.isGap = []) :
    l.Ends (l.pos.advance l.scanner.rest) := by
  have hnext : l.next = (.ok { Lexeme.eof with pos := l.pos.advance l.scanner.rest },
      ⟨⟨[], l.pos.advance l.scanner.rest, l.scanner.nesting⟩, none⟩) := by
    rw [Lexer.next, hp, Scanner.next_of_end h]
    rfl
  constructor
  case rest => exact List.dropWhile_eq_nil_iff.1 h
  case next => rw [hnext]
  case left => rw [hnext]
  case pos =>
    rw [hnext]
    rfl
  case offset => exact Position.offset_advance _ _

theorem Ends.results {q : Position} (hp : l.peeked = none) (h : l.Ends q) (n : Nat) :
    l.results n = List.replicate n (.ok { Lexeme.eof with pos := q }) := by
  induction n generalizing l with
  | zero => rfl
  | succ n ih =>
    have hpeek : l.next.2.peeked = none := (scanner_next hp rfl).2
    have hagain : l.next.2.Ends q := by
      have hend := ends_of_gap hpeek (by rw [h.left]; rfl)
      rw [h.left, h.pos] at hend
      exact hend
    rw [Lexer.results, h.next, ih hpeek hagain, List.replicate_succ]

structure HasRead (source : List Char) (l : Lexer) : Prop where
  peeked : l.peeked = none
  split : ∃ cs, source = cs ++ l.scanner.rest ∧ l.pos.offset = cs.length

theorem hasRead_ofSource (source : List Char) : HasRead source (ofSource source) :=
  ⟨rfl, [], rfl, rfl⟩

theorem HasRead.next {source : List Char} (h : HasRead source l) : HasRead source l.next.2 := by
  obtain ⟨cs, hsource, hoffset⟩ := h.split
  refine ⟨(scanner_next h.peeked rfl).2, ?_⟩
  cases hrest : l.scanner.rest.dropWhile Scanner.isGap with
  | nil =>
    have hend := ends_of_gap h.peeked hrest
    refine ⟨cs ++ l.scanner.rest, ?_, ?_⟩
    · rw [hend.left, List.append_nil, hsource]
    · rw [hend.pos, hend.offset, hoffset, List.length_append]
      omega
  | cons c _ =>
    obtain ⟨p, htakes⟩ := takes_of_start h.peeked hrest
    refine ⟨cs ++ p.text, ?_, ?_⟩
    · rw [List.append_assoc, ← htakes.rest, hsource]
    · rw [htakes.stop, hoffset, List.length_append]
      omega

theorem HasRead.resume {source : List Char} (h : HasRead source l) (n : Nat) :
    HasRead source (l.resume n) := by
  induction n generalizing l with
  | zero => exact h
  | succ n ih => exact ih h.next

theorem HasRead.char_at {source : List Char} (h : HasRead source l) :
    source[(Lexed.pos l.next.1).offset.toNat]? =
      (l.scanner.rest.dropWhile Scanner.isGap).head? := by
  obtain ⟨cs, hsource, hoffset⟩ := h.split
  cases hrest : l.scanner.rest.dropWhile Scanner.isGap with
  | nil =>
    have hend := ends_of_gap h.peeked hrest
    have hlength := congrArg List.length hsource
    rw [List.length_append] at hlength
    rw [hend.next, Lexed.pos, hend.offset, hoffset]
    exact List.getElem?_eq_none (by omega)
  | cons c _ =>
    obtain ⟨p, htakes⟩ := takes_of_start h.peeked hrest
    obtain ⟨d, ds, hseg, hd⟩ := htakes.segment
    have hd : l.scanner.rest.dropWhile Scanner.isGap = d :: (ds ++ l.next.2.scanner.rest) := by
      rw [htakes.rest, Tile.text, hseg, List.append_assoc, List.dropWhile_append_of_pos htakes.gap]
      exact List.dropWhile_cons_of_neg hd
    obtain ⟨rfl, -⟩ := List.cons.inj (hrest.symm.trans hd)
    have hplace : (Lexed.pos l.next.1).offset.toNat = (cs ++ p.gap).length := by
      rw [htakes.next, htakes.start, hoffset, List.length_append]
      omega
    rw [hplace, hsource, htakes.rest, Tile.text, hseg, List.append_assoc, ← List.append_assoc,
      List.getElem?_append_right (Nat.le_refl _), Nat.sub_self]
    rfl

inductive Tiles : Lexer → List Tile → Lexer → Prop where
  | nil (l : Lexer) : Tiles l [] l
  | cons {l l' l'' : Lexer} {p : Tile} {ps : List Tile} :
    l.Takes p l' → Tiles l' ps l'' → Tiles l (p :: ps) l''

theorem exists_tiles (hp : l.peeked = none) :
    ∃ ps l', l.Tiles ps l' ∧ l'.peeked = none ∧ l'.scanner.rest.dropWhile Scanner.isGap = [] := by
  induction hn : l.scanner.rest.length using Nat.strongRecOn generalizing l with
  | ind n ih =>
  cases hrest : l.scanner.rest.dropWhile Scanner.isGap with
  | nil => exact ⟨[], l, .nil l, hp, hrest⟩
  | cons c cs =>
    obtain ⟨p, htakes⟩ := takes_of_start hp hrest
    have hlt : l.next.2.scanner.rest.length < n := by
      obtain ⟨d, ds, hseg, -⟩ := htakes.segment
      rw [← hn, htakes.rest, Tile.text, hseg]
      simp only [List.length_append, List.length_cons]
      omega
    obtain ⟨ps, l', htiles, hpeek, hend⟩ := ih _ hlt (htakes.peeked hp) rfl
    exact ⟨p :: ps, l', .cons htakes htiles, hpeek, hend⟩

namespace Tiles

variable {ps qs : List Tile}

theorem rest (h : l.Tiles ps l') :
    l.scanner.rest = ps.flatMap Tile.text ++ l'.scanner.rest := by
  induction h with
  | nil l => rfl
  | cons ht _ ih => rw [ht.rest, ih, List.flatMap_cons, List.append_assoc]

theorem offset (h : l.Tiles ps l') :
    l'.pos.offset = l.pos.offset + (ps.flatMap Tile.text).length := by
  induction h with
  | nil l => simp
  | cons ht _ ih =>
    rw [ih, ht.stop, List.flatMap_cons, List.length_append]
    omega

theorem resume (h : l.Tiles ps l') : l.resume ps.length = l' := by
  induction h with
  | nil l => rfl
  | cons ht _ ih => rw [List.length_cons, Lexer.resume, ht.next, ih]

theorem results (h : l.Tiles ps l') : l.results ps.length = ps.map Tile.result := by
  induction h with
  | nil l => rfl
  | cons ht _ ih => rw [List.length_cons, Lexer.results, ht.next, ih, List.map_cons]

theorem append (h : l.Tiles (ps ++ qs) l') : ∃ k, l.Tiles ps k ∧ k.Tiles qs l' := by
  induction ps generalizing l with
  | nil => exact ⟨l, .nil l, h⟩
  | cons p ps ih =>
    cases h with
    | cons ht hrest =>
      obtain ⟨k, hps, hqs⟩ := ih hrest
      exact ⟨k, .cons ht hps, hqs⟩

theorem takes (h : l.Tiles (ps ++ p :: qs) l') :
    ∃ k k', l.Tiles ps k ∧ k.Takes p k' ∧ k'.Tiles qs l' := by
  obtain ⟨k, hps, hqs⟩ := h.append
  cases hqs with
  | cons ht hrest => exact ⟨k, _, hps, ht, hrest⟩

theorem length_le (h : l.Tiles ps l') : ps.length ≤ (ps.flatMap Tile.text).length := by
  induction h with
  | nil l => exact Nat.zero_le _
  | @cons _ _ _ p ps ht _ ih =>
    obtain ⟨c, cs, hseg, -⟩ := ht.segment
    simp only [List.flatMap_cons, List.length_append, List.length_cons, Tile.text, hseg] at ih ⊢
    omega

theorem pairwise (h : l.Tiles ps l') :
    (ps.map fun p => p.result.pos.offset).Pairwise (· < ·) ∧
      ∀ p ∈ ps, l.pos.offset ≤ p.result.pos.offset ∧ p.result.pos.offset < l'.pos.offset := by
  induction h with
  | nil l => exact ⟨.nil, List.forall_mem_nil _⟩
  | @cons l k l' p ps ht hrest ih =>
    obtain ⟨hsorted, hbounds⟩ := ih
    obtain ⟨c, cs, hseg, -⟩ := ht.segment
    have hfirst : p.result.pos.offset < k.pos.offset := by
      rw [ht.stop, ht.start, Tile.text, List.length_append, hseg, List.length_cons]
      omega
    have hstart := ht.start
    have hlast := hrest.offset
    constructor
    · refine .cons ?_ hsorted
      intro o ho
      obtain ⟨q, hq, rfl⟩ := List.mem_map.1 ho
      exact Int.lt_of_lt_of_le hfirst (hbounds q hq).1
    · refine List.forall_mem_cons.2 ⟨⟨by omega, by omega⟩, ?_⟩
      intro q hq
      have := hbounds q hq
      omega

end Tiles

/-- Calls for tokens cut a source into tiles, one a call, and then yield the end for ever. A tile
is white space, which is passed over, and a segment that is not empty and starts where the token or
the error of the call is reported. The tiles and the white space at the end make up the source; the
places of the reports go up, and the last of them is the end of the source. -/
theorem calls_tile_source (source : List Char) :
    ∃ (tiles : List Tile) (gap : List Char) (stop : Position),
      source = tiles.flatMap Tile.text ++ gap ∧ (∀ c ∈ gap, Scanner.isGap c) ∧
      (∀ before p after, tiles = before ++ p :: after →
        ((ofSource source).resume before.length).scanner.rest =
            p.gap ++ p.segment ++ ((ofSource source).resume (before.length + 1)).scanner.rest ∧
          (∀ c ∈ p.gap, Scanner.isGap c) ∧
          (∃ c cs, p.segment = c :: cs ∧ ¬ Scanner.isGap c) ∧ ¬ p.result.isEnd ∧
          p.result.pos.offset = (before.flatMap Tile.text ++ p.gap).length) ∧
      (∀ further, (ofSource source).results (tiles.length + further) =
        tiles.map Tile.result ++
          List.replicate further (.ok { Lexeme.eof with pos := stop })) ∧
      stop.offset = source.length ∧
      (tiles.map (fun p => p.result.pos.offset) ++ [stop.offset]).Pairwise (· < ·) ∧
      tiles.length + 1 ≤ source.length + 1 := by
  obtain ⟨tiles, last, htiles, hpeek, hgap⟩ := exists_tiles (l := ofSource source) rfl
  have hend := ends_of_gap hpeek hgap
  have hsource : source = tiles.flatMap Tile.text ++ last.scanner.rest := htiles.rest
  have hlast : last.pos.offset = (tiles.flatMap Tile.text).length := by
    rw [htiles.offset]
    exact Int.zero_add _
  have hstop : (last.pos.advance last.scanner.rest).offset = source.length := by
    have hlength := congrArg List.length hsource
    rw [List.length_append] at hlength
    rw [hend.offset, hlast]
    omega
  refine ⟨tiles, last.scanner.rest, last.pos.advance last.scanner.rest, hsource, hend.rest,
    ?_, ?_, hstop, ?_, ?_⟩
  · rintro before p after rfl
    obtain ⟨k, k', hbefore, htakes, hafter⟩ := htiles.takes
    have hnext : (ofSource source).resume (before.length + 1) = k' := by
      rw [resume_succ, hbefore.resume, htakes.next]
    refine ⟨?_, htakes.gap, htakes.segment, htakes.result, ?_⟩
    · rw [hbefore.resume, hnext, htakes.rest]
      rfl
    · rw [htakes.start, hbefore.offset, List.length_append]
      simp only [ofSource, pos, Position.start]
      omega
  · intro further
    rw [results_add, htiles.results, htiles.resume, hend.results hpeek]
  · obtain ⟨hsorted, hbounds⟩ := htiles.pairwise
    refine List.pairwise_append.2 ⟨hsorted, List.pairwise_singleton _ _, ?_⟩
    intro o ho o' ho'
    obtain ⟨p, hp, rfl⟩ := List.mem_map.1 ho
    rw [List.mem_singleton.1 ho', hend.offset]
    have := (hbounds p hp).2
    omega
  · have hcount := htiles.length_le
    have hlength := congrArg List.length hsource
    rw [List.length_append] at hlength
    omega

end Lexer

end Reckon
