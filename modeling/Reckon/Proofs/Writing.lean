import Reckon.Assembly.Writer

namespace Reckon

namespace Buffer

def written (b : Buffer) : Bytes := b.sink.content ++ b.pending

/-- A buffer that has met no refusal and will meet none. -/
structure IsOpen (b : Buffer) : Prop where
  limit : b.sink.limit = none
  failed : b.failed = false

variable {b : Buffer}

theorem IsOpen.send (h : b.IsOpen) (bytes : Bytes) :
    (b.send bytes).IsOpen ∧ (b.send bytes).pending = [] ∧
      (b.send bytes).sink.content = b.sink.content ++ bytes := by
  have hw : b.sink.write bytes = some { b.sink with content := b.sink.content ++ bytes } := by
    simp [Sink.write, h.limit]
  rw [Buffer.send, hw]
  exact ⟨⟨h.limit, h.failed⟩, rfl, rfl⟩

theorem IsOpen.restart (h : b.IsOpen) (hp : b.pending = []) (bytes : Bytes) :
    (b.restart bytes).IsOpen ∧ (b.restart bytes).written = b.written ++ bytes := by
  rw [Buffer.restart, if_neg (by simp [h.failed])]
  split
  · exact ⟨⟨h.limit, h.failed⟩, by simp [written, hp]⟩
  · obtain ⟨ho, hp', hc⟩ := h.send bytes
    exact ⟨ho, by simp [written, hp, hp', hc]⟩

theorem IsOpen.write (h : b.IsOpen) (bytes : Bytes) :
    (b.write bytes).IsOpen ∧ (b.write bytes).written = b.written ++ bytes := by
  unfold Buffer.write
  rw [if_neg (by simp [h.failed])]
  split
  · exact ⟨⟨h.limit, h.failed⟩, by simp [written]⟩
  · split
    · next hp =>
      obtain ⟨ho, hp', hc⟩ := h.send bytes
      exact ⟨ho, by simp [written, hp, hp', hc]⟩
    · obtain ⟨ho, hp, hc⟩ := h.send (b.pending ++ bytes.take (bufferSize - b.pending.length))
      obtain ⟨ho', hw⟩ := ho.restart hp (bytes.drop (bufferSize - b.pending.length))
      refine ⟨ho', hw.trans ?_⟩
      simp [written, hp, hc]

theorem IsOpen.flush (h : b.IsOpen) : b.flush.sink.content = b.written := by
  unfold Buffer.flush
  split
  · next hp =>
    have hp : b.pending = [] := by simpa [h.failed] using hp
    simp [written, hp]
  · exact (h.send b.pending).2.2

end Buffer

namespace Assembly

def texts (i : Instr) : List String :=
  match lines i with
  | .ok ls => ls.map Line.text
  | .error _ => []

def textBytes (ts : List String) : Bytes := ts.flatMap fun t => utf8 (t ++ "\n")

namespace Writer

variable {w : Writer}

theorem put_open (h : w.buffer.IsOpen) (ls : List Line) :
    (w.put ls).buffer.IsOpen ∧
      (w.put ls).buffer.written = w.buffer.written ++ textBytes (ls.map Line.text) := by
  induction ls generalizing w with
  | nil => exact ⟨h, by simp [put, textBytes]⟩
  | cons l ls ih =>
    obtain ⟨ho, hw⟩ := h.write l.bytes
    obtain ⟨ho', hw'⟩ := ih (w := ⟨w.buffer.write l.bytes⟩) ho
    refine ⟨ho', hw'.trans ?_⟩
    simp only [hw]
    simp [textBytes, Line.bytes]

theorem instr_open (h : w.buffer.IsOpen) (i : Instr) :
    (w.instr i).1.buffer.IsOpen ∧
      (w.instr i).1.buffer.written = w.buffer.written ++ textBytes (texts i) := by
  unfold instr texts
  rw [if_neg (by simp [h.failed])]
  cases lines i with
  | ok ls => exact put_open h ls
  | error e => exact ⟨h, by simp [textBytes]⟩

theorem foldl_instr_open (h : w.buffer.IsOpen) (code : List Instr) :
    (code.foldl (fun w i => (w.instr i).1) w).buffer.IsOpen ∧
      (code.foldl (fun w i => (w.instr i).1) w).buffer.written =
        w.buffer.written ++ textBytes (code.flatMap texts) := by
  induction code generalizing w with
  | nil => exact ⟨h, by simp [textBytes]⟩
  | cons i is ih =>
    obtain ⟨ho, hw⟩ := instr_open h i
    obtain ⟨ho', hw'⟩ := ih ho
    exact ⟨ho', hw'.trans (by simp [hw, textBytes])⟩

/-- What reaches a sink without a limit is the lines of the instructions that have code. -/
theorem flush_instrs (code : List Instr) :
    (code.foldl (fun w i => (w.instr i).1) (ofSink {})).flush.1.sink.content =
      textBytes (code.flatMap texts) := by
  obtain ⟨ho, hw⟩ := foldl_instr_open (w := ofSink {}) ⟨rfl, rfl⟩ code
  exact ho.flush.trans hw

end Writer

end Assembly

end Reckon
