import LoxLex.Text.Basic

/-! # Sinks

A sink takes bytes up to its limit and keeps what it took. A write that does not fit fails, after
the part that fits has been taken; a write that fits exactly succeeds. -/

namespace LoxLex

/-- An output that takes no more than a limited number of bytes, if it has a limit. -/
structure Sink where
  limit : Option Nat := none
  taken : Array UInt8 := #[]

namespace Sink

/-- Writes bytes to a sink, and says whether it took them all. -/
def write (s : Sink) (bytes : Bytes) : Bool × Sink :=
  match s.limit with
  | none => (true, { s with taken := s.taken ++ bytes })
  | some limit =>
    let room := limit - s.taken.size
    (bytes.length ≤ room, { s with taken := s.taken ++ bytes.take room })

end Sink

/-- What ends the work on a pair of streams. -/
inductive StreamError where
  /-- The output did not take all that was written to it. -/
  | sinkFull
  /-- The input is not the UTF-8 form of a text. -/
  | invalidUtf8
  deriving DecidableEq, Repr

/-- What a stream error says. -/
def StreamError.message : StreamError → Text
  | sinkFull => "sink full".toList
  | invalidUtf8 => "stream did not contain valid UTF-8".toList

end LoxLex
