import Reckon.Proofs.CodeText
import Reckon.Proofs.Delivery

namespace Reckon

/-- How many full buffers a text has sent: one that is just full waits for the next byte. -/
def chunksSent (length : Nat) : Nat := (length - 1) / 4096

theorem chunksSent_le (length : Nat) : 4096 * chunksSent length ≤ length := by
  unfold chunksSent
  omega

theorem chunksSent_bounds {length k : Nat} (h : k = chunksSent length) :
    4096 * k ≤ length - 1 ∧ length ≤ 4096 * (k + 1) := by
  rw [h, chunksSent]
  omega

theorem chunksSent_eq {length k : Nat} (hlow : 4096 * k ≤ length - 1)
    (hhigh : length ≤ 4096 * (k + 1)) : chunksSent length = k := by
  unfold chunksSent
  omega

theorem chunksSent_eq_ceilDiv (length : Nat) : chunksSent length = length ⌈/⌉ 4096 - 1 := by
  rw [Nat.ceilDiv_eq_add_pred_div]
  unfold chunksSent
  omega

theorem chunksSent_mono {length length' : Nat} (h : length ≤ length') :
    chunksSent length ≤ chunksSent length' := by
  unfold chunksSent
  omega

namespace Buffer

variable {b : Buffer} {bytes text : Bytes} {n : Nat}

theorem write_of_fits (ho : b.failed = false) (h : b.pending.length + bytes.length ≤ bufferSize) :
    b.write bytes = { b with pending := b.pending ++ bytes } := by
  unfold write
  rw [if_neg (by simp [ho]), if_pos (by omega)]

theorem write_of_over (ho : b.failed = false) (hn : b.sink.limit = some n)
    (hp : b.pending.length ≤ bufferSize) (hb : bytes.length ≤ bufferSize)
    (h : bufferSize < b.pending.length + bytes.length) :
    let room := bufferSize - b.pending.length
    b.sink.content.length + bufferSize ≤ n ∧ b.write bytes =
      { b with
        sink := { b.sink with content := b.sink.content ++ (b.pending ++ bytes.take room) }
        pending := bytes.drop room } ∨
    n < b.sink.content.length + bufferSize ∧ b.write bytes = { b with failed := true } := by
  intro room
  have hlen : (b.pending ++ bytes.take room).length = bufferSize := by
    rw [List.length_append, List.length_take]
    omega
  have hne : b.pending ≠ [] := by
    intro hnil
    rw [hnil, List.length_nil] at h
    omega
  have hwrite : b.write bytes = (b.send (b.pending ++ bytes.take room)).restart
      (bytes.drop room) := by
    unfold write
    rw [if_neg (by simp [ho]), if_neg (by omega), if_neg hne]
  rw [hwrite]
  rcases b.send_cases (b.pending ++ bytes.take room) with ⟨hfit, hs⟩ | ⟨n', hn', hlt, hs⟩
  · left
    refine ⟨by simpa only [hlen] using hfit n hn, ?_⟩
    have hdrop : (bytes.drop room).length ≤ bufferSize := by
      rw [List.length_drop]
      omega
    rw [hs, restart, if_neg (by simp [ho]), if_pos hdrop]
  · right
    cases hn'.symm.trans hn
    refine ⟨by simpa only [hlen] using hlt, ?_⟩
    rw [hs, restart, if_pos rfl]

/-- A buffer in front of an empty sink of `n` bytes, after a text was written in pieces that fit
into the buffer. -/
inductive Chunked (n : Nat) : Buffer → Bytes → Prop where
  | holding {text : Bytes} {k : Nat} : k = chunksSent text.length → 4096 * k ≤ n →
    Chunked n { sink := { limit := some n, content := text.take (4096 * k) }
                pending := text.drop (4096 * k) } text
  | refused {text pending : Bytes} : n < 4096 * chunksSent text.length →
    Chunked n { sink := { limit := some n, content := text.take (4096 * (n / 4096)) }
                pending, failed := true } text

namespace Chunked

theorem start (n : Nat) : Chunked n { sink := { limit := some n } } [] :=
  holding (k := 0) rfl (Nat.zero_le n)

theorem sink_of_failed (h : Chunked n b text) (hf : b.failed) : n < 4096 * chunksSent text.length ∧
    b.sink = { limit := some n, content := text.take (4096 * (n / 4096)) } := by
  cases h with
  | holding => cases hf
  | refused hlt => exact ⟨hlt, rfl⟩

theorem sink_of_open (h : Chunked n b text) (ho : b.failed = false) :
    4096 * chunksSent text.length ≤ n ∧
      b.sink = { limit := some n, content := text.take (4096 * chunksSent text.length) } := by
  cases h with
  | holding hk hle =>
    subst hk
    exact ⟨hle, rfl⟩
  | refused => cases ho

theorem more (h : Chunked n b text) (hf : b.failed) (bytes : Bytes) :
    Chunked n b (text ++ bytes) := by
  cases h with
  | holding => cases hf
  | refused hlt =>
    have hle := chunksSent_le text.length
    have hlonger : text.length ≤ (text ++ bytes).length := by
      rw [List.length_append]
      omega
    have hmono := chunksSent_mono hlonger
    have htake : text.take (4096 * (n / 4096)) = (text ++ bytes).take (4096 * (n / 4096)) :=
      (List.take_append_of_le_length (by omega)).symm
    rw [htake]
    exact refused (by omega)

theorem write_over {k : Nat} (hk : k = chunksSent text.length) (hle : 4096 * k ≤ n)
    (hb : bytes.length ≤ bufferSize) (hover : 4096 * (k + 1) < text.length + bytes.length) :
    Chunked n (Buffer.write ⟨⟨some n, text.take (4096 * k)⟩, text.drop (4096 * k), false⟩ bytes)
      (text ++ bytes) := by
  have hsize : bufferSize = 4096 := rfl
  obtain ⟨hlow, hhigh⟩ := chunksSent_bounds hk
  have hpending : (text.drop (4096 * k)).length = text.length - 4096 * k := List.length_drop
  have hcontent : (text.take (4096 * k)).length = 4096 * k := List.length_take_of_le (by omega)
  have hnext : k + 1 = chunksSent (text ++ bytes).length := by
    rw [List.length_append, chunksSent_eq] <;> omega
  rcases write_of_over (b := ⟨⟨some n, text.take (4096 * k)⟩, text.drop (4096 * k), false⟩) rfl
    rfl (by dsimp only; omega) hb (by dsimp only; omega) with ⟨hn, hw⟩ | ⟨hn, hw⟩
  · have hroom : 4096 * (k + 1) - text.length = bufferSize - (text.length - 4096 * k) := by omega
    have hall := holding (n := n) hnext (by dsimp only at hn; omega)
    rw [List.take_append, List.drop_append, List.take_of_length_le (by omega),
      List.drop_of_length_le (by omega), List.nil_append, hroom] at hall
    rw [hw]
    dsimp only
    rw [← List.append_assoc, List.take_append_drop, hpending]
    exact hall
  · have hdiv : n / 4096 = k := by
      dsimp only at hn
      omega
    have hall : Chunked n ⟨⟨some n, (text ++ bytes).take (4096 * (n / 4096))⟩,
        text.drop (4096 * k), true⟩ (text ++ bytes) := by
      apply refused
      rw [← hnext]
      dsimp only at hn
      omega
    rw [hdiv, List.take_append_of_le_length (by omega)] at hall
    rw [hw]
    exact hall

theorem write (h : Chunked n b text) (hb : bytes.length ≤ bufferSize) :
    Chunked n (b.write bytes) (text ++ bytes) := by
  cases h with
  | refused hlt =>
    rw [write_failed rfl]
    exact (refused hlt).more rfl bytes
  | @holding _ k hk hle =>
    by_cases hfit : text.length + bytes.length ≤ 4096 * (k + 1)
    · have hsize : bufferSize = 4096 := rfl
      obtain ⟨hlow, hhigh⟩ := chunksSent_bounds hk
      have hpending : (text.drop (4096 * k)).length = text.length - 4096 * k := List.length_drop
      have hnext : k = chunksSent (text ++ bytes).length := by
        rw [List.length_append, chunksSent_eq] <;> omega
      have hall := holding hnext hle
      rw [List.take_append_of_le_length (by omega),
        List.drop_append_of_le_length (by omega)] at hall
      rw [write_of_fits rfl (by dsimp only; omega)]
      exact hall
    · exact write_over hk hle hb (by omega)

/-- A flush brings the whole text to the sink if the limit allows it, and only full buffers if
not. -/
theorem flush (h : Chunked n b text) :
    text.length ≤ n ∧ b.flush.failed = false ∧
      b.flush.sink = { limit := some n, content := text } ∨
    n < text.length ∧ b.flush.failed = true ∧
      b.flush.sink = { limit := some n, content := text.take (4096 * (n / 4096)) } := by
  have hle := chunksSent_le text.length
  cases h with
  | refused hlt =>
    rw [flush_failed rfl]
    exact .inr ⟨by omega, rfl, rfl⟩
  | @holding _ k hk hkn =>
    obtain ⟨hlow, hhigh⟩ := chunksSent_bounds hk
    unfold Buffer.flush
    split
    · next hp =>
      have hp : text.drop (4096 * k) = [] := by simpa using hp
      have hlen : text.length ≤ 4096 * k := List.drop_eq_nil_iff.1 hp
      left
      refine ⟨by omega, rfl, ?_⟩
      dsimp only
      rw [List.take_of_length_le hlen]
    · next hp =>
      have hne : text.drop (4096 * k) ≠ [] := by simpa using hp
      have hpos : 4096 * k < text.length := by
        by_contra hge
        exact hne (List.drop_of_length_le (by omega))
      rcases send_cases ⟨⟨some n, text.take (4096 * k)⟩, text.drop (4096 * k), false⟩
        (text.drop (4096 * k)) with ⟨hfit, hs⟩ | ⟨n', hn', hlt, hs⟩
      · rw [hs]
        have hfit := hfit n rfl
        dsimp only at hfit ⊢
        rw [← List.length_append, List.take_append_drop] at hfit
        rw [List.take_append_drop]
        exact .inl ⟨hfit, rfl, rfl⟩
      · rw [hs]
        cases hn'
        dsimp only at hlt ⊢
        rw [← List.length_append, List.take_append_drop] at hlt
        have hdiv : n / 4096 = k := by omega
        rw [hdiv]
        exact .inr ⟨hlt, rfl, rfl⟩

end Chunked

end Buffer

open Buffer (Chunked)

namespace Assembly

theorem length_bytes_le {l : Line} (h : l.text.toList.length ≤ 139) :
    l.bytes.length ≤ bufferSize := by
  have hutf8 := length_utf8 (l.text ++ "\n")
  have hbreak : "\n".toList.length = 1 := by decide
  rw [String.toList_append, List.length_append, hbreak] at hutf8
  rw [Line.bytes, bufferSize]
  omega

theorem Legible.line_le {i : Instr} {ls : List Line} (h : Legible i) (hl : lines i = .ok ls) :
    ∀ l ∈ ls, l.bytes.length ≤ bufferSize := by
  intro l hmem
  apply length_bytes_le
  apply h.length_le
  rw [texts, hl]
  exact List.mem_map_of_mem hmem

theorem prologue_line_le : ∀ l ∈ prologue, l.bytes.length ≤ bufferSize := by
  have hall : ∀ l ∈ prologue, l.text.toList.length ≤ 139 := by decide +kernel
  intro l hl
  exact length_bytes_le (hall l hl)

namespace Writer

variable {w : Writer} {n : Nat} {text : Bytes} {code : List Instr}

theorem report_of_open (h : w.buffer.failed = false) : w.report = (w, none) := by
  simp [report, error?, h]

theorem report_of_failed (h : w.buffer.failed) : w.report = (w, some .sinkFull) := by
  simp [report, error?, h]

theorem put_chunked {ls : List Line} (h : Chunked n w.buffer text)
    (hls : ∀ l ∈ ls, l.bytes.length ≤ bufferSize) :
    Chunked n (w.put ls).buffer (text ++ textBytes (ls.map Line.text)) :=
  put_induction h fun l hl _ _ hb => hb.write (hls l hl)

theorem instr_chunked {i : Instr} (h : Chunked n w.buffer text) (hi : Legible i) :
    ∃ w' : Writer, w.instr i = w'.report ∧ Chunked n w'.buffer (text ++ textBytes (texts i)) := by
  cases hf : w.buffer.failed with
  | true => exact ⟨w, by rw [instr, if_pos hf], h.more hf _⟩
  | false =>
    obtain ⟨ls, hl⟩ := hi.writable
    refine ⟨w.put ls, by rw [instr, if_neg (by simp [hf]), hl], ?_⟩
    rw [texts, hl]
    exact put_chunked h (hi.line_le hl)

theorem instrs_chunked (h : Chunked n w.buffer text) (ho : w.buffer.failed = false)
    (hcode : ∀ i ∈ code, Legible i) : ∃ w' : Writer, w.instrs code = w'.report ∧
      Chunked n w'.buffer (text ++ textBytes (code.flatMap texts)) := by
  induction code generalizing w text with
  | nil =>
    refine ⟨w, (report_of_open ho).symm, ?_⟩
    rw [List.flatMap_nil, textBytes, List.flatMap_nil, List.append_nil]
    exact h
  | cons i is ih =>
    obtain ⟨hi, his⟩ := List.forall_mem_cons.1 hcode
    obtain ⟨w', hw', hc⟩ := instr_chunked h hi
    rw [List.flatMap_cons, textBytes_append, ← List.append_assoc]
    cases hf : w'.buffer.failed with
    | true =>
      rw [report_of_failed hf] at hw'
      exact ⟨w', by rw [instrs, hw', report_of_failed hf], hc.more hf _⟩
    | false =>
      rw [report_of_open hf] at hw'
      rw [instrs, hw']
      exact ih hc hf his

end Writer

end Assembly

open Assembly (Legible listing textBytes texts Writer)

namespace Generator

variable {g : Generator} {n : Nat} {text : Bytes} {code : List Instr}

theorem generate_of_instrs {e : Expr} {w : Writer} (he : e.lower = .ok code)
    (hw : g.writer.instrs code = w.report) : g.generate e = (⟨w⟩, w.error?.map .write) := by
  rw [generate, he]
  dsimp only
  rw [hw]
  rfl

theorem generateAll_chunked {es : List Expr} (h : Chunked n g.writer.buffer text)
    (ho : g.writer.buffer.failed = false) (hes : ∀ e ∈ es, e.WellFormed)
    (hcode : Program.body es = .ok code) (rest : List Expr) :
    ∃ w : Writer, Chunked n w.buffer (text ++ textBytes (code.flatMap texts)) ∧
      (w.buffer.failed = true →
        ∃ m, g.generateAll (es ++ rest) = (⟨w⟩, m, some (.write .sinkFull))) ∧
      (w.buffer.failed = false → ∀ g' m error, generateAll ⟨w⟩ rest = (g', m, error) →
        ∃ m', g.generateAll (es ++ rest) = (g', m', error)) := by
  induction es generalizing g text code with
  | nil =>
    cases hcode
    refine ⟨g.writer, ?_, fun hf => ?_, fun _ g' m error hrest => ⟨m, hrest⟩⟩
    · rw [List.flatMap_nil, textBytes, List.flatMap_nil, List.append_nil]
      exact h
    · cases ho.symm.trans hf
  | cons e es ih =>
    obtain ⟨he, hes⟩ := List.forall_mem_cons.1 hes
    obtain ⟨first, later, hfirst, hlater, rfl⟩ := Program.body_cons_ok hcode
    obtain ⟨w, hw, hc⟩ := Writer.instrs_chunked h ho (he.lowers hfirst).legible
    rw [List.flatMap_append, Assembly.textBytes_append, ← List.append_assoc]
    cases hf : w.buffer.failed with
    | true =>
      have hg := generate_of_instrs hfirst hw
      rw [Writer.error?, if_pos hf] at hg
      refine ⟨w, hc.more hf _, fun _ => ⟨0, ?_⟩, fun ho => ?_⟩
      · rw [List.cons_append, generateAll, hg]
        rfl
      · cases hf.symm.trans ho
    | false =>
      have hg := generate_of_instrs hfirst hw
      rw [Writer.error?, if_neg (by simp [hf]), Option.map_none] at hg
      obtain ⟨w', hc', hfail, hgo⟩ := ih (g := ⟨w⟩) hc hf hes hlater
      refine ⟨w', hc', fun hf' => ?_, fun ho' g' m error hrest => ?_⟩
      · obtain ⟨m, hm⟩ := hfail hf'
        exact ⟨m + 1, by rw [List.cons_append, generateAll, hg]; dsimp only; rw [hm]⟩
      · obtain ⟨m', hm⟩ := hgo ho' g' m error hrest
        exact ⟨m' + 1, by rw [List.cons_append, generateAll, hg]; dsimp only; rw [hm]⟩

theorem ofSink_chunked (n : Nat) : ∃ w : Writer,
    ofSink { limit := some n } = (⟨w⟩, w.error?.map .write) ∧ Chunked n w.buffer (listing []) := by
  refine ⟨(Writer.ofSink { limit := some n }).put Assembly.prologue, rfl, ?_⟩
  have hall := Writer.put_chunked (w := .ofSink { limit := some n }) (Chunked.start n)
    Assembly.prologue_line_le
  rw [List.nil_append] at hall
  rw [listing, List.flatMap_nil, List.append_nil]
  exact hall

def outcome (g : Generator) : Option GenerateError → Sink × Option GenerateError
  | some error => (g.writer.sink, some error)
  | none => (g.finish.1.writer.sink, g.finish.2)

def resume (es : List Expr) : Generator × Option GenerateError → Sink × Option GenerateError
  | (g, some error) => (g.writer.sink, some error)
  | (g, none) => (g.generateAll es).1.outcome (g.generateAll es).2.2

theorem finish_chunked (h : Chunked n g.writer.buffer text) :
    let all := text ++ textBytes (texts .exit)
    g.outcome none =
      if all.length ≤ n then ({ limit := some n, content := all }, none)
      else ({ limit := some n, content := all.take (4096 * (n / 4096)) },
        some (.write .sinkFull)) := by
  intro all
  obtain ⟨w, hw, hc⟩ := Writer.instr_chunked (i := .exit) h (.fixed (by decide))
  change Chunked n w.buffer all at hc
  rw [outcome, finish, Writer.epilogue, hw]
  cases hf : w.buffer.failed with
  | true =>
    obtain ⟨hlt, hsink⟩ := hc.sink_of_failed hf
    have hle := chunksSent_le all.length
    rw [Writer.report_of_failed hf, if_neg (by omega), ← hsink]
    rfl
  | false =>
    rw [Writer.report_of_open hf]
    rcases hc.flush with ⟨hfit, ho, hsink⟩ | ⟨hlt, hf', hsink⟩
    · rw [if_pos hfit, ← hsink]
      dsimp only [Writer.flush]
      rw [Writer.report_of_open (w := ⟨w.buffer.flush⟩) ho]
      rfl
    · rw [if_neg (by omega), ← hsink]
      dsimp only [Writer.flush]
      rw [Writer.report_of_failed (w := ⟨w.buffer.flush⟩) hf']
      rfl

end Generator

namespace Program

variable {before : List Expr} {code : List Instr}

theorem generate_eq (p : Program) (sink : Sink) :
    p.generate sink = Generator.resume p.exprs (Generator.ofSink sink) := by
  -- Unfolded at an argument, the definition would make the kernel write the lines of the start.
  obtain ⟨f, hf⟩ : ∃ f, f = Program.generate := ⟨_, rfl⟩
  rw [← hf]
  delta Program.generate at hf
  rw [hf]
  beta_reduce
  rcases Generator.ofSink sink with ⟨g, _ | error⟩
  · dsimp only [Generator.resume]
    rcases g.generateAll p.exprs with ⟨g', m, _ | error⟩ <;> rfl
  · rfl

theorem generate_chunked (hes : ∀ e ∈ before, e.WellFormed) (hcode : body before = .ok code)
    (n : Nat) (rest : List Expr) : ∃ w : Writer, Chunked n w.buffer (listing code) ∧
      (w.buffer.failed = true → Program.generate ⟨before ++ rest⟩ { limit := some n } =
        (w.sink, some (.write .sinkFull))) ∧
      (w.buffer.failed = false → ∀ g m error, Generator.generateAll ⟨w⟩ rest = (g, m, error) →
        Program.generate ⟨before ++ rest⟩ { limit := some n } = g.outcome error) := by
  rw [← List.nil_append code, Assembly.listing_append]
  obtain ⟨w, hs, hc⟩ := Generator.ofSink_chunked n
  cases hf : w.buffer.failed with
  | true =>
    rw [Writer.error?, if_pos hf] at hs
    refine ⟨w, hc.more hf _, fun _ => ?_, fun ho => ?_⟩
    · rw [generate_eq, hs]
      rfl
    · cases hf.symm.trans ho
  | false =>
    rw [Writer.error?, if_neg (by simp [hf])] at hs
    obtain ⟨w', hc', hfail, hgo⟩ := Generator.generateAll_chunked (g := ⟨w⟩) hc hf hes hcode rest
    refine ⟨w', hc', fun hf' => ?_, fun ho' g m error hrest => ?_⟩
    · obtain ⟨m, hm⟩ := hfail hf'
      rw [generate_eq, hs, Option.map_none, Generator.resume, hm]
      rfl
    · obtain ⟨m', hm⟩ := hgo ho' g m error hrest
      rw [generate_eq, hs, Option.map_none, Generator.resume, hm]

theorem generate_limited {p : Program} (hp : ∀ e ∈ p.exprs, e.WellFormed)
    (hcode : p.lower = .ok code) (n : Nat) :
    p.generate { limit := some n } =
      if (listing code).length ≤ n then ({ limit := some n, content := listing code }, none)
      else ({ limit := some n, content := (listing code).take (4096 * (n / 4096)) },
        some (.write .sinkFull)) := by
  obtain ⟨body, hbody, hcode⟩ := bind_eq_ok.1 hcode
  cases hcode
  obtain ⟨w, hc, hfail, hgo⟩ := generate_chunked hp hbody n []
  rw [List.append_nil] at hfail hgo
  have hlisting : listing (body ++ [.exit]) = listing body ++ textBytes (texts .exit) := by
    rw [Assembly.listing_append, List.flatMap_singleton]
  rw [hlisting]
  cases hf : w.buffer.failed with
  | true =>
    obtain ⟨hlt, hsink⟩ := (hc.more hf (textBytes (texts .exit))).sink_of_failed hf
    have hle := chunksSent_le (listing body ++ textBytes (texts .exit)).length
    rw [hfail hf, if_neg (by omega), ← hsink]
    rfl
  | false =>
    rw [hgo hf ⟨w⟩ 0 none rfl]
    exact Generator.finish_chunked hc

theorem generate_unsupported {e : Expr} {error : LowerError} {after : List Expr}
    (hes : ∀ e ∈ before, e.WellFormed) (hcode : body before = .ok code)
    (he : e.lower = .error error) (n : Nat) :
    let c := chunksSent (listing code).length
    Program.generate ⟨before ++ e :: after⟩ { limit := some n } =
      if 4096 * c ≤ n then
        ({ limit := some n, content := (listing code).take (4096 * c) }, some (.lower error))
      else ({ limit := some n, content := (listing code).take (4096 * (n / 4096)) },
        some (.write .sinkFull)) := by
  intro c
  obtain ⟨w, hc, hfail, hgo⟩ := generate_chunked hes hcode n (e :: after)
  cases hf : w.buffer.failed with
  | true =>
    obtain ⟨hlt, hsink⟩ := hc.sink_of_failed hf
    rw [hfail hf, if_neg (by omega), ← hsink]
    rfl
  | false =>
    obtain ⟨hle, hsink⟩ := hc.sink_of_open hf
    have hstop : Generator.generateAll ⟨w⟩ (e :: after) = (⟨w⟩, 0, some (.lower error)) := by
      rw [Generator.generateAll, Generator.generate, he]
    rw [hgo hf _ _ _ hstop, if_pos hle, ← hsink]
    rfl

end Program

theorem Expr.lower_error {e : Expr} (h : ¬ e.IsStatement) : ∃ error, e.lower = .error error := by
  cases hl : e.lower with
  | error error => exact ⟨error, rfl⟩
  | ok code =>
    rcases supported_of_lowerAs hl with hv | ⟨-, hs⟩
    · exact absurd (.bare hv) h
    · exact absurd hs h

/-- What a sink of `n` bytes holds in the end, and what is reported: nothing is written of a source
that does not parse; a program that has code is written as a whole if it fits; and up to the first
statement without code, that statement is reported unless the sink refuses a full buffer before. -/
theorem compile_limited (source : List Char) (n : Nat) :
    (∀ error, Program.parse source = .error error →
      compile source { limit := some n } = ({ limit := some n }, some (.parse error))) ∧
    ∀ p, Program.parse source = .ok p →
      (p.IsSupported → ∃ code, p.lower = .ok code ∧
        let text := listing code
        compile source {} = ({ content := text }, none) ∧
        compile source { limit := some n } =
          if text.length ≤ n then ({ limit := some n, content := text }, none)
          else ({ limit := some n, content := text.take (4096 * (n / 4096)) },
            some (.generate (.write .sinkFull)))) ∧
      ∀ before e after, p.exprs = before ++ e :: after →
        (∀ b ∈ before, b.IsStatement) → ¬ e.IsStatement →
        ∃ code node, Program.body before = .ok code ∧ e.lower = .error (.unsupported node) ∧
          let text := listing code
          let c := text.length ⌈/⌉ 4096 - 1
          compile source { limit := some n } =
            if 4096 * c ≤ n then
              ({ limit := some n, content := text.take (4096 * c) },
                some (.generate (.lower (.unsupported node))))
            else ({ limit := some n, content := text.take (4096 * (n / 4096)) },
              some (.generate (.write .sinkFull))) := by
  refine ⟨fun error h => by rw [compile, h], fun p h => ?_⟩
  have hwf := Program.wellFormed_of_parse h
  constructor
  · intro hp
    obtain ⟨code, hcode⟩ := p.isSupported_iff.1 hp
    refine ⟨code, hcode, compile_listing h hcode, ?_⟩
    rw [compile_of_parse h, Program.generate_limited hwf hcode]
    split <;> rfl
  · intro before e after hsplit hbefore he
    rw [hsplit] at hwf
    obtain ⟨hwfs, hwfe⟩ := List.forall_mem_append.1 hwf
    obtain ⟨code, hcode, -⟩ := Program.body_prints hbefore
    obtain ⟨error, hl⟩ := Expr.lower_error he
    obtain ⟨node, rfl⟩ := (hwfe e List.mem_cons_self).lowerAs_error hl
    refine ⟨code, node, hcode, hl, ?_⟩
    intro text c
    obtain rfl : p = ⟨before ++ e :: after⟩ := congrArg Program.mk hsplit
    rw [compile_of_parse h, Program.generate_unsupported hwfs hcode hl, chunksSent_eq_ceilDiv]
    split <;> rfl

/-- A sink that takes nothing: a name is reported before anything is sent, while a program of one
number is refused when it is flushed. -/
theorem compile_limited_name :
    Program.parse "1\n".toList = .ok ⟨[.literal (.integer 1)]⟩ ∧
    compile "1\n".toList { limit := some 0 } =
      ({ limit := some 0 }, some (.generate (.write .sinkFull))) ∧
    Program.parse "1\nx\n".toList = .ok ⟨[.literal (.integer 1), .symbol "x"]⟩ ∧
    compile "1\nx\n".toList { limit := some 0 } =
      ({ limit := some 0 }, some (.generate (.lower (.unsupported "symbol literal x")))) := by
  have hone : Token.literal { toLexeme := .numeral "1".toList false } = .ok (.integer 1) := by
    decide +kernel
  have hnumber : Grammar.Spells (.tier .logical) [.numeral "1".toList false]
    (.literal (.integer 1)) := .operand (.numeral rfl hone)
  have hname : Grammar.Spells (.tier .logical) [.plain .identifier ['x']] (.symbol "x") :=
    .operand (.name (l := .plain .identifier ['x']) rfl)
  have hparse : Program.parse "1\n".toList = .ok ⟨[.literal (.integer 1)]⟩ :=
    (Grammar.SpellsAll.cons (l := .plain .eol ['\n']) hnumber rfl .nil).parse
      ⟨(lex _).1, Prod.ext rfl (by decide +kernel), by decide +kernel⟩
  have hparse' : Program.parse "1\nx\n".toList = .ok ⟨[.literal (.integer 1), .symbol "x"]⟩ :=
    (Grammar.SpellsAll.cons (l := .plain .eol ['\n']) hnumber rfl
      (.cons (l := .plain .eol ['\n']) hname rfl .nil)).parse
      ⟨(lex _).1, Prod.ext rfl (by decide +kernel), by decide +kernel⟩
  have hone : (Expr.literal (.integer 1)).IsStatement := .bare (.integer 1)
  have hx : ¬ (Expr.symbol "x").IsStatement := by
    intro h
    cases h with
    | bare h => cases h
  obtain ⟨-, hall⟩ := compile_limited "1\n".toList 0
  obtain ⟨-, hall'⟩ := compile_limited "1\nx\n".toList 0
  obtain ⟨code, hcode, -, hlimited⟩ := (hall _ hparse).1 (List.forall_mem_singleton.2 hone)
  obtain ⟨code', node, hcode', hnode, hlimited'⟩ := (hall' _ hparse').2 [.literal (.integer 1)]
    (.symbol "x") [] rfl (List.forall_mem_singleton.2 hone) hx
  have hbody : code' = [.push (.int 1)] := (Except.ok.inj hcode').symm
  have hlower : (Expr.symbol "x").lower = .error (.unsupported "symbol literal x") := by decide
  cases hcode
  cases hlower.symm.trans hnode
  refine ⟨hparse, ?_, hparse', ?_⟩
  · rw [hlimited, if_neg (by decide +kernel), Nat.zero_div, Nat.mul_zero, List.take_zero]
  · have hchunks : (listing code').length ⌈/⌉ 4096 - 1 = 0 := by
      rw [hbody, ← chunksSent_eq_ceilDiv]
      decide +kernel
    dsimp only at hlimited'
    rw [hchunks, Nat.mul_zero, if_pos (Nat.zero_le 0), List.take_zero] at hlimited'
    exact hlimited'

end Reckon
