import LoxLex.CommandLine
import LoxLex.Prompt
import LoxLex.Script

/-! # The program

What the program does with its arguments, its standard input and the sources it can read: its exit
and what it leaves on its two output streams. -/

namespace LoxLex

/-- What a run of the program leaves behind. -/
structure Outcome where
  exit : Exit
  stdout : Array UInt8 := #[]
  stderr : Array UInt8 := #[]

namespace Outcome

/-- An outcome, with what a terminal took. -/
def ofTerminal (exit : Exit) (t : Terminal) : Outcome :=
  ⟨exit, t.output.taken, t.console.stream.taken⟩

/-- An outcome with a text on the standard output. -/
def ofText (text : Text) : Outcome := ⟨.success, (Utf8.encode text).toArray, #[]⟩

end Outcome

/-- Runs the program. Lexical errors count for the exit of a script, and not at the prompt. -/
def program (source : Text → Except SourceError Text) (args : List Text) (stdin : Bytes) :
    Outcome :=
  match Invocation.ofArgs args with
  | .help => .ofText helpText
  | .version => .ofText versionText
  | .badUsage => ⟨.badUsage, #[], #[]⟩
  | .script path =>
    match ({} : Console).script (source path) with
    | (.ok exit, t) => .ofTerminal exit t
    | (.error _, t) => .ofTerminal .failure t
  | .prompt =>
    match ({} : Terminal).prompt stdin with
    | (none, d) => .ofTerminal .success d.terminal
    | (some _, d) => .ofTerminal .failure d.terminal

end LoxLex
