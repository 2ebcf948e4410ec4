import LoxLex.Console
import LoxLex.Scan.Basic

/-! # Terminals

A terminal is an output with a console beside it. Scanned sources are presented on it: their errors
on the console, their tokens on the output. -/

namespace LoxLex

/-- An output with a console beside it. -/
structure Terminal where
  output : Sink := {}
  console : Console := {}

namespace Terminal

/-- Writes a text to the output, and says whether it took it all. -/
def print (t : Terminal) (text : Text) : Bool × Terminal :=
  let (fits, output) := t.output.write (Utf8.encode text)
  (fits, { t with output })

/-- Reports the errors of a scan, then lists its tokens, and says whether the output took them
all. -/
def present (t : Terminal) (s : Scan) : Bool × Terminal :=
  { t with console := t.console.reportAll s.errors }.print s.listing

/-- Forgets the errors reported so far. -/
def reset (t : Terminal) : Terminal := { t with console := t.console.reset }

end Terminal

end LoxLex
