import LoxLex.LexicalError
import LoxLex.Sink
import LoxLex.Text.Utf8

/-! # Consoles

A console takes reports of errors and remembers whether there was one since it was last reset. It
keeps that record also when its stream is full. -/

namespace LoxLex

/-- The stream that errors are reported on, and whether one was since the last reset. -/
structure Console where
  stream : Sink := {}
  hadError : Bool := false

namespace Console

/-- Reports an error. That the stream does not take it all is not noticed. -/
def report (c : Console) (e : LexicalError) : Console where
  stream := (c.stream.write (Utf8.encode e.report)).2
  hadError := true

/-- Reports errors one after the other. -/
def reportAll (c : Console) (errors : List LexicalError) : Console := errors.foldl report c

/-- Forgets the errors reported so far. -/
def reset (c : Console) : Console := { c with hadError := false }

end Console

end LoxLex
