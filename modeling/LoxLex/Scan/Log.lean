import LoxLex.Scan.Basic

/-! # The log of a scan

A scan accounts for what it does in a log: each token, the one comment that was searched for its end
in vain, and at last how much was scanned. `Scan.trace` is the log together with the errors, in the
order in which they come up; `Scan.log` is the log alone. -/

namespace LoxLex

/-- An event of the log. -/
inductive LogEvent where
  /-- A token other than the end of input. -/
  | token (token : Token)
  /-- A search for the end of a comment that failed, with the line of the comment's slash. -/
  | unclosedComment (line : Nat)
  /-- The end of a scan, with the bytes of the source and the numbers of tokens and errors. -/
  | scanned (bytes tokens errors : Nat)
  /-- The end of the input of a prompt. -/
  | inputClosed
  deriving DecidableEq, Repr

namespace LogEvent

/-- How much an event weighs: tokens are the finest grain. -/
def level : LogEvent → Text
  | token _ => "TRACE".toList
  | _ => "DEBUG".toList

/-- What an event says. -/
def message : LogEvent → Text
  | token _ => "token".toList
  | unclosedComment _ => "unterminated block comment, scanning '/' as a slash".toList
  | scanned .. => "scanned source".toList
  | inputClosed => "input closed, leaving prompt".toList

/-- The further fields of an event, by name. -/
def details : LogEvent → List (Text × Text)
  | token t => [("token".toList, t.display), ("line".toList, decimalText t.line)]
  | unclosedComment line => [("line".toList, decimalText line)]
  | scanned bytes tokens errors =>
    [("source_len".toList, decimalText bytes), ("tokens".toList, decimalText tokens),
      ("errors".toList, decimalText errors)]
  | inputClosed => []

/-- All fields of an event, by name. -/
def fields (e : LogEvent) : List (Text × Text) :=
  ("level".toList, e.level) :: ("message".toList, e.message) :: e.details

end LogEvent

/-- What comes up in a scan: an event of the log, or an error to be reported. -/
inductive Entry where
  | event (event : LogEvent)
  | report (error : LexicalError)
  deriving DecidableEq, Repr

namespace Entry

/-- The event, if this is one. -/
def event? : Entry → Option LogEvent
  | event e => some e
  | report _ => none

end Entry

/-- What comes up in one step: first the search that failed, then the token or the error. -/
def Step.entries (s : Step) : List Entry :=
  (if s.piece.barren then [.event (.unclosedComment s.line)] else [])
    ++ (s.token?.map fun t => Entry.event (.token t)).toList
    ++ (s.error?.map Entry.report).toList

namespace Scan

/-- What comes up in a scan, in order. -/
def trace (s : Scan) : List Entry :=
  s.steps.flatMap Step.entries
    ++ [.event (.scanned s.stop.offset s.tokens.length s.errors.length)]

/-- The log of a scan. -/
def log (s : Scan) : List LogEvent := s.trace.filterMap Entry.event?

end Scan

end LoxLex
