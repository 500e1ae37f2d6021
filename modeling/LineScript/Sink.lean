/-!
# Sinks

A sink is whatever a program writes to. It answers every request with its next
state and, if it refused, with the reason. A buffer is the sink that keeps what it
is given, up to a limit.
-/

namespace LineScript

/-- How to write to and flush something with states `σ`. A refusal gives the
message of the failure. -/
structure Sink (σ : Type) where
  write : σ → ByteArray → Option String × σ
  flush : σ → Option String × σ

/-- Bytes in memory. -/
structure Buffer where
  bytes : ByteArray
  /-- How many bytes there may be; `none` if any number. -/
  limit : Option Nat
  /-- What is said when bytes do not fit. -/
  fullMessage : String
  /-- What is said when the buffer is flushed, if that fails. -/
  flushMessage : Option String

namespace Buffer

def unlimited : Buffer :=
  { bytes := ByteArray.empty, limit := none, fullMessage := "", flushMessage := none }

/-- Keeps the part of the data that fits, and accepts data that fits whole. -/
def write (b : Buffer) (data : ByteArray) : Option String × Buffer :=
  match b.limit with
  | none => (none, { b with bytes := b.bytes ++ data })
  | some limit =>
    let room := limit - b.bytes.size
    if data.size ≤ room then (none, { b with bytes := b.bytes ++ data })
    else (some b.fullMessage, { b with bytes := b.bytes ++ data.extract 0 room })

def sink : Sink Buffer :=
  { write, flush := fun b => (b.flushMessage, b) }

end Buffer

end LineScript
