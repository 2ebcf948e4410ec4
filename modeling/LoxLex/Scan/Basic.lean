import LoxLex.Scan.Cursor

/-! # Scans

A scan takes one piece after the other off the front of a source text, and keeps for each where it
begins. The tokens and the lexical errors are read off these steps; errors do not stop a scan. -/

namespace LoxLex

/-- A scanned source: the steps from its beginning to its end, and the cursor there. -/
structure Scan where
  steps : List Step
  stop : Cursor

/-- Scans a source text, from its first character on line 1. -/
def scan (source : Text) : Scan :=
  let (steps, stop) := (Cursor.start source).runFrom #[]
  ⟨steps.toList, stop⟩

/-- The steps of a scan are those from the start of the source. -/
@[simp] theorem steps_scan (source : Text) :
    (scan source).steps = (Cursor.start source).steps := rfl

/-- A scan stops where the cursor does that starts with the source. -/
@[simp] theorem stop_scan (source : Text) :
    (scan source).stop = (Cursor.start source).stop := rfl

namespace Scan

/-- The tokens of a source, with the end of input last, on the line where the source ends. -/
def tokens (s : Scan) : List Token :=
  s.steps.filterMap Step.token? ++ [Token.endOfInput s.stop.line]

/-- The lexical errors of a source. -/
def errors (s : Scan) : List LexicalError := s.steps.filterMap Step.error?

/-- The tokens as shown, one a line. -/
def listing (s : Scan) : Text := s.tokens.flatMap fun t => t.display ++ ['\n']

end Scan

end LoxLex
