import LoxLex.Text.Basic

/-! # Lexical errors

What can be wrong with a source text, and how it is said. -/

namespace LoxLex

/-- A lexical error, with the line that it is reported on. -/
inductive LexicalError where
  /-- A character that begins no piece of any other kind. -/
  | unexpectedCharacter (line : Nat) (character : Char)
  /-- A string that runs into the end of the source; its line is the last one. -/
  | unterminatedString (line : Nat)
  /-- A number that has no value. -/
  | invalidNumber (line : Nat) (lexeme : Text)
  deriving DecidableEq, Repr

namespace LexicalError

/-- The line that an error is reported on. -/
def line : LexicalError → Nat
  | unexpectedCharacter line _ => line
  | unterminatedString line => line
  | invalidNumber line _ => line

/-- What an error says. -/
def message : LexicalError → Text
  | unexpectedCharacter _ character =>
    "Unexpected character '".toList ++ character :: "'.".toList
  | unterminatedString _ => "Unterminated string.".toList
  | invalidNumber _ lexeme => "Invalid number '".toList ++ lexeme ++ "'.".toList

/-- The report of an error: a line with its place and what it says. -/
def report (e : LexicalError) : Text :=
  "[line ".toList ++ decimalText e.line ++ "] Error: ".toList ++ e.message ++ ['\n']

end LexicalError

end LoxLex
