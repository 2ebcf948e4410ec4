import LoxLex.Text.Basic

/-! # The command line

The arguments ask for help or the version, name one script, or name none and so ask for the prompt.
They are read from left to right, and the first of them that asks for help or the version or makes
no sense decides; behind `--` all are names of scripts. -/

namespace LoxLex

/-- What the arguments ask for. -/
inductive Invocation where
  | help
  | version
  | badUsage
  | script (path : Text)
  | prompt
  deriving DecidableEq, Repr

namespace Invocation

/-- The invocation of a script, or of the prompt if none is named. -/
def ofScript : Option Text → Invocation
  | none => prompt
  | some path => script path

/-- Reads arguments that name scripts, of which there may be one in all. -/
def ofNames (script : Option Text) : List Text → Invocation
  | [] => ofScript script
  | name :: names =>
    if name = [] ∨ script.isSome then badUsage else ofNames (some name) names

/-- Reads arguments among which there may be options, after those that named a script. Letters of
short options may stand together, and the first of them decides. -/
def ofArgsFrom (script : Option Text) : List Text → Invocation
  | [] => ofScript script
  | arg :: args =>
    match arg with
    | ['-', '-'] => ofNames script args
    | '-' :: '-' :: option =>
      if option = "help".toList then help
      else if option = "version".toList then version
      else badUsage
    | '-' :: letter :: _ =>
      if letter = 'h' then help
      else if letter = 'V' then version
      else badUsage
    | _ => if arg = [] ∨ script.isSome then badUsage else ofArgsFrom (some arg) args

/-- What the arguments ask for. -/
def ofArgs (args : List Text) : Invocation := ofArgsFrom none args

end Invocation

/-! ### What is printed at once -/

/-- The version as printed. -/
def versionText : Text := "rlox 0.1.0\n".toList

/-- The help as printed. -/
def helpText : Text :=
  ("Splits Lox source into tokens and prints them, one per line\n" ++
    "\n" ++
    "Usage: lox_scanner [SCRIPT]\n" ++
    "\n" ++
    "Arguments:\n" ++
    "  [SCRIPT]  Script to scan. Starts an interactive prompt when omitted\n" ++
    "\n" ++
    "Options:\n" ++
    "  -h, --help     Print help\n" ++
    "  -V, --version  Print version\n").toList

end LoxLex
