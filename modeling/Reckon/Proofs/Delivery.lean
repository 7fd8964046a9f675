import Reckon.Proofs.Writing

namespace Reckon

theorem Sink.write_cases (s : Sink) (bytes : Bytes) :
    (∀ n, s.limit = some n → s.content.length + bytes.length ≤ n) ∧
      s.write bytes = some { s with content := s.content ++ bytes } ∨
    ∃ n, s.limit = some n ∧ n < s.content.length + bytes.length ∧ s.write bytes = none := by
  unfold write
  cases hn : s.limit with
  | none => exact .inl ⟨by simp, rfl⟩
  | some n =>
    by_cases h : s.content.length + bytes.length ≤ n
    · exact .inl ⟨by simpa using h, if_pos h⟩
    · exact .inr ⟨n, rfl, by omega, if_neg h⟩

namespace Buffer

variable {b : Buffer} {bytes text : Bytes} {limit : Option Nat}

/-- Bytes that are handed to the sink are taken as a whole, or they go beyond the limit and the
buffer has failed. -/
theorem send_cases (b : Buffer) (bytes : Bytes) :
    (∀ n, b.sink.limit = some n → b.sink.content.length + bytes.length ≤ n) ∧ b.send bytes =
      { b with sink := { b.sink with content := b.sink.content ++ bytes }, pending := [] } ∨
    ∃ n, b.sink.limit = some n ∧ n < b.sink.content.length + bytes.length ∧
      b.send bytes = { b with failed := true } := by
  unfold send
  rcases b.sink.write_cases bytes with ⟨h, hw⟩ | ⟨n, hn, h, hw⟩
  · rw [hw]
    exact .inl ⟨h, rfl⟩
  · rw [hw]
    exact .inr ⟨n, hn, h, rfl⟩

/-- A buffer in front of a sink with a limit, after some text was written: nothing of it is lost
unless it goes beyond the limit, and the sink holds a prefix of it in any case. -/
structure Delivers (b : Buffer) (limit : Option Nat) (text : Bytes) : Prop where
  limit_eq : b.sink.limit = limit
  written_eq : b.failed = false → b.written = text
  prefixed : b.failed → b.sink.content <+: text ∧ ∃ n, limit = some n ∧ n < text.length

theorem write_failed (h : b.failed) (bytes : Bytes) : b.write bytes = b := by
  simp [write, h]

theorem flush_failed (h : b.failed) : b.flush = b := by
  simp [flush, h]

namespace Delivers

theorem more (h : b.Delivers limit text) (hf : b.failed) (bytes : Bytes) :
    b.Delivers limit (text ++ bytes) := by
  obtain ⟨hp, n, hn, hlt⟩ := h.prefixed hf
  refine ⟨h.limit_eq, fun ho => absurd hf (by simp [ho]), fun _ => ?_⟩
  exact ⟨hp.trans (List.prefix_append _ _), n, hn, by rw [List.length_append]; omega⟩

theorem send (hlimit : b.sink.limit = limit) (ho : b.failed = false) (bytes : Bytes) :
    (b.send bytes).Delivers limit (b.sink.content ++ bytes) ∧
      ((b.send bytes).failed = false → (b.send bytes).pending = []) := by
  rcases b.send_cases bytes with ⟨-, hs⟩ | ⟨n, hn, hlt, hs⟩
  · rw [hs]
    exact ⟨⟨hlimit, fun _ => List.append_nil _, by simp [ho]⟩, fun _ => rfl⟩
  · rw [hs]
    refine ⟨⟨hlimit, by simp, fun _ => ?_⟩, by simp⟩
    exact ⟨List.prefix_append _ _, n, hlimit ▸ hn, by simpa using hlt⟩

theorem restart (h : b.Delivers limit text) (hp : b.failed = false → b.pending = [])
    (bytes : Bytes) : (b.restart bytes).Delivers limit (text ++ bytes) := by
  unfold Buffer.restart
  cases hf : b.failed with
  | true => exact h.more hf bytes
  | false =>
    have htext : b.sink.content = text := by
      rw [← h.written_eq hf, written, hp hf, List.append_nil]
    rw [if_neg (by simp)]
    split
    · exact ⟨h.limit_eq, fun _ => by rw [written, htext], by simp⟩
    · rw [← htext]
      exact (send h.limit_eq hf bytes).1

theorem write (h : b.Delivers limit text) (bytes : Bytes) :
    (b.write bytes).Delivers limit (text ++ bytes) := by
  cases hf : b.failed with
  | true =>
    rw [write_failed hf]
    exact h.more hf bytes
  | false =>
    have htext := h.written_eq hf
    unfold Buffer.write
    rw [if_neg (by simp [hf])]
    split
    · refine ⟨h.limit_eq, fun _ => ?_, by simp [hf]⟩
      rw [← htext, written, written, List.append_assoc]
    · split
      · next hp =>
        rw [← htext, written, hp, List.append_nil]
        exact (send h.limit_eq hf bytes).1
      · -- The text splits where the buffer is full.
        obtain ⟨hs, hp⟩ := send h.limit_eq hf
          (b.pending ++ bytes.take (bufferSize - b.pending.length))
        have hall := hs.restart hp (bytes.drop (bufferSize - b.pending.length))
        rw [← List.append_assoc, List.append_assoc, List.take_append_drop] at hall
        rw [← htext]
        exact hall

theorem flush (h : b.Delivers limit text) : b.flush.Delivers limit text ∧
    (b.flush.failed = false → b.flush.sink.content = text) := by
  cases hf : b.failed with
  | true =>
    rw [flush_failed hf]
    exact ⟨h, by simp [hf]⟩
  | false =>
    have htext := h.written_eq hf
    unfold Buffer.flush
    split
    · next hp =>
      have hp : b.pending = [] := by simpa [hf] using hp
      refine ⟨h, fun _ => ?_⟩
      rw [← htext, written, hp, List.append_nil]
    · obtain ⟨hs, hp⟩ := send h.limit_eq hf b.pending
      change (b.send b.pending).Delivers limit b.written at hs
      rw [htext] at hs
      refine ⟨hs, fun ho => ?_⟩
      rw [← hs.written_eq ho, written, hp ho, List.append_nil]

end Delivers

end Buffer

namespace Assembly

namespace Writer

inductive Call where
  | prologue
  | epilogue
  | flush
  | instr (i : Instr)
  deriving DecidableEq, Repr

def Call.text : Call → Bytes
  | .prologue => textBytes (Assembly.prologue.map Line.text)
  | .epilogue => textBytes (texts .exit)
  | .flush => []
  | .instr i => textBytes (texts i)

def call (w : Writer) : Call → Writer × Option Error
  | .prologue => w.prologue
  | .epilogue => w.epilogue
  | .flush => w.flush
  | .instr i => w.instr i

def run (w : Writer) : List Call → Writer × List (Option Error)
  | [] => (w, [])
  | c :: cs =>
    let (w', error) := w.call c
    let (w'', errors) := w'.run cs
    (w'', error :: errors)

variable {w : Writer} {limit : Option Nat} {text : Bytes}

/-- What every write preserves, a sequence of lines preserves. -/
theorem put_induction {P : Buffer → Bytes → Prop} {ls : List Line} (h : P w.buffer text)
    (hwrite : ∀ l ∈ ls, ∀ b text, P b text → P (b.write l.bytes) (text ++ l.bytes)) :
    P (w.put ls).buffer (text ++ textBytes (ls.map Line.text)) := by
  induction ls generalizing w text with
  | nil =>
    rw [List.map_nil, textBytes, List.flatMap_nil, List.append_nil]
    exact h
  | cons l ls ih =>
    obtain ⟨hl, hls⟩ := List.forall_mem_cons.1 hwrite
    have hall := ih (w := ⟨w.buffer.write l.bytes⟩) (hl _ _ h) hls
    rw [List.append_assoc] at hall
    exact hall

theorem run_cons (w : Writer) (c : Call) (cs : List Call) :
    w.run (c :: cs) = (((w.call c).1.run cs).1, (w.call c).2 :: ((w.call c).1.run cs).2) := rfl

theorem run_append (w : Writer) (cs ds : List Call) :
    w.run (cs ++ ds) = (((w.run cs).1.run ds).1, (w.run cs).2 ++ ((w.run cs).1.run ds).2) := by
  induction cs generalizing w with
  | nil => rfl
  | cons c cs ih => rw [List.cons_append, run_cons, ih, run_cons, List.cons_append]

end Writer

end Assembly

end Reckon
