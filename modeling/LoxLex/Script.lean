import LoxLex.Files
import LoxLex.Terminal

/-! # Scripts

A script is read from a file, scanned as one source and listed. Its exit says whether an error
stands on the console's record. -/

namespace LoxLex

/-- How the program ends. -/
inductive Exit where
  /-- All went well. -/
  | success
  /-- Something could not be read. -/
  | failure
  /-- The arguments make no sense. -/
  | badUsage
  /-- A script with lexical errors. -/
  | badSource
  deriving DecidableEq, Repr

/-- The number of an exit. -/
def Exit.code : Exit → Nat
  | success => 0
  | failure => 1
  | badUsage => 64
  | badSource => 65

/-- The exit after a script, by the record of errors on the console. -/
def Console.exit (c : Console) : Exit := if c.hadError then .badSource else .success

/-- Runs a source that was read as a script: lists it on an output that takes all, and gives the
exit. What could not be read leaves everything as it was. -/
def Console.script (c : Console) (source : Except SourceError Text) :
    Except SourceError Exit × Terminal :=
  match source with
  | .error e => (.error e, { console := c })
  | .ok text =>
    let (_, terminal) := Terminal.present { console := c } (scan text)
    (.ok terminal.console.exit, terminal)

end LoxLex
