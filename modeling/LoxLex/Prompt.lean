import LoxLex.Scan.Log
import LoxLex.Terminal
import LoxLex.Text.Lines

/-! # The prompt

The prompt asks for a line, scans it as a source of its own, lists its tokens, and forgets its
errors, until the input ends. It stops at once when the output is full or a line is not UTF-8; the
errors of the line that it stops at are not forgotten. -/

namespace LoxLex

/-- A terminal, with the log of what was scanned on it. -/
structure Dialogue where
  terminal : Terminal := {}
  log : Array LogEvent := #[]

namespace Dialogue

/-- Writes a text to the output. -/
def print (d : Dialogue) (text : Text) : Option StreamError × Dialogue :=
  let (fits, terminal) := d.terminal.print text
  (if fits then none else some .sinkFull, { d with terminal })

/-- Asks for a line. -/
def ask (d : Dialogue) : Option StreamError × Dialogue := d.print "> ".toList

/-- Answers a line: lists its tokens and forgets its errors. -/
def answer (d : Dialogue) (line : Bytes) : Option StreamError × Dialogue :=
  match Utf8.decode? line with
  | none => (some .invalidUtf8, d)
  | some text =>
    let s := scan text
    let (fits, terminal) := d.terminal.present s
    let log := d.log ++ s.log
    if fits then (none, ⟨terminal.reset, log⟩) else (some .sinkFull, ⟨terminal, log⟩)

/-- Ends the dialogue, on a line of its own. -/
def close (d : Dialogue) : Option StreamError × Dialogue :=
  { d with log := d.log.push .inputClosed }.print ['\n']

/-- Asks for and answers line after line, then closes; or stops at the first failure. -/
def converse (d : Dialogue) : List Bytes → Option StreamError × Dialogue
  | [] =>
    match d.ask with
    | (none, d) => d.close
    | failed => failed
  | line :: lines =>
    match d.ask with
    | (none, d) =>
      match d.answer line with
      | (none, d) => d.converse lines
      | failed => failed
    | failed => failed

end Dialogue

/-- Runs the prompt on an input. -/
def Terminal.prompt (t : Terminal) (input : Bytes) : Option StreamError × Dialogue :=
  Dialogue.converse { terminal := t } (lines input)

end LoxLex
