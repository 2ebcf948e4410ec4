import LoxLex.Prompt
import LoxLex.Script

/-! # Sessions

A session is a sequence of actions on one console. Each action that lists tokens has an output of
its own. -/

namespace LoxLex

/-- What can be done on a console. -/
inductive Action where
  /-- Scans a source and lists its tokens on an output with a limit. -/
  | run (source : Text) (limit : Option Nat)
  /-- Runs the prompt on an input, with an output with a limit. -/
  | prompt (input : Bytes) (limit : Option Nat)
  /-- Runs the script at a path. -/
  | script (path : Text)
  /-- Scans a source for its tokens. -/
  | tokenize (source : Text)
  /-- Reports an error. -/
  | report (error : LexicalError)
  /-- Forgets the errors reported so far. -/
  | reset

/-- What an action gives. -/
inductive Reply where
  /-- What a run or a prompt left on its output, and what ended it early. -/
  | listed (output : Array UInt8) (failure : Option StreamError)
  /-- What a script left on its output, and its exit. -/
  | ran (output : Array UInt8) (exit : Except SourceError Exit)
  /-- The tokens of a source. -/
  | tokens (tokens : List Token)
  /-- Nothing to be seen. -/
  | done

/-- Does one action. -/
def Console.act (c : Console) (fs : Files) : Action → Reply × Console
  | .run source limit =>
    let (fits, t) := Terminal.present { output := { limit }, console := c } (scan source)
    (.listed t.output.taken (if fits then none else some .sinkFull), t.console)
  | .prompt input limit =>
    let (failure, d) := Terminal.prompt { output := { limit }, console := c } input
    (.listed d.terminal.output.taken failure, d.terminal.console)
  | .script path =>
    let (exit, t) := c.script (fs.source path)
    (.ran t.output.taken exit, t.console)
  | .tokenize source =>
    let s := scan source
    (.tokens s.tokens, c.reportAll s.errors)
  | .report e => (.done, c.report e)
  | .reset => (.done, c.reset)

/-- Does one action after the other. Each reply comes with the console as the action left it. -/
def Console.session (c : Console) (fs : Files) : List Action → List (Reply × Console)
  | [] => []
  | action :: actions =>
    let (reply, after) := c.act fs action
    (reply, after) :: after.session fs actions

end LoxLex
