import Reckon.Text

namespace Reckon

/-- An output that takes whole writes up to a limit and refuses a write that would exceed it. -/
structure Sink where
  limit : Option Nat := none
  content : Bytes := []
  deriving DecidableEq, Repr, Inhabited

namespace Sink

/-- Writes some bytes, all of them or none. -/
def write (s : Sink) (bytes : Bytes) : Option Sink :=
  match s.limit with
  | some n =>
    if s.content.length + bytes.length ≤ n then some { s with content := s.content ++ bytes }
    else none
  | none => some { s with content := s.content ++ bytes }

def text (s : Sink) : String := (Text.decode s.content).toString

end Sink

def bufferSize : Nat := 4096

/-- Collects writes and hands them on `bufferSize` bytes at a time. Once the sink has refused
something it takes nothing more. -/
structure Buffer where
  sink : Sink := {}
  pending : Bytes := []
  failed : Bool := false
  deriving DecidableEq, Repr, Inhabited

namespace Buffer

def send (b : Buffer) (bytes : Bytes) : Buffer :=
  match b.sink.write bytes with
  | some sink => { b with sink, pending := [] }
  | none => { b with failed := true }

/-- Keeps what fits into the empty buffer and sends what does not. -/
def restart (b : Buffer) (bytes : Bytes) : Buffer :=
  if b.failed then b
  else if bytes.length ≤ bufferSize then { b with pending := bytes }
  else b.send bytes

/-- Writes some bytes. What does not fit fills the buffer, and the full buffer is sent. -/
def write (b : Buffer) (bytes : Bytes) : Buffer :=
  let room := bufferSize - b.pending.length
  if b.failed then b
  else if bytes.length ≤ room then { b with pending := b.pending ++ bytes }
  else if b.pending = [] then b.send bytes
  else (b.send (b.pending ++ bytes.take room)).restart (bytes.drop room)

def flush (b : Buffer) : Buffer :=
  if b.failed ∨ b.pending = [] then b else b.send b.pending

end Buffer

end Reckon
