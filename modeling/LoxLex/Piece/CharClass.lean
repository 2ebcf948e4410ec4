import LoxLex.Token.Kind

/-! # Classes of characters

What a character begins when a piece of source starts with it. Letters and digits are those of
ASCII. A hyphen continues a word but begins none: in front it is the sign of subtraction. -/

namespace LoxLex

/-- What a character at the front of a piece begins. -/
inductive CharClass where
  /-- A token of its own. -/
  | punctuation (kind : TokenKind)
  /-- An operator of one character, or of two if an equals sign follows. -/
  | operator (alone withEqual : TokenKind)
  /-- A slash: an operator or a comment. -/
  | slash
  /-- Space between tokens. -/
  | blank
  /-- A string. -/
  | quote
  /-- A number. -/
  | digit
  /-- A word. -/
  | letter
  /-- Nothing at all. -/
  | other
  deriving DecidableEq, Repr

/-- The class of a character. -/
def CharClass.of (c : Char) : CharClass :=
  match c with
  | '(' => .punctuation .leftParen
  | ')' => .punctuation .rightParen
  | '{' => .punctuation .leftBrace
  | '}' => .punctuation .rightBrace
  | ',' => .punctuation .comma
  | '.' => .punctuation .dot
  | '-' => .punctuation .minus
  | '+' => .punctuation .plus
  | ';' => .punctuation .semicolon
  | '*' => .punctuation .star
  | '!' => .operator .bang .bangEqual
  | '=' => .operator .equal .equalEqual
  | '<' => .operator .less .lessEqual
  | '>' => .operator .greater .greaterEqual
  | '/' => .slash
  | ' ' => .blank
  | '\t' => .blank
  | '\r' => .blank
  | '\n' => .blank
  | '"' => .quote
  | _ => if c.isDigit then .digit else if c.isAlpha then .letter else .other

/-- Whether a character continues a word. -/
def isWordChar (c : Char) : Bool := c.isAlpha || c.isDigit || c == '-'

end LoxLex
