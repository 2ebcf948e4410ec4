import LoxLex.Binary64.Display
import LoxLex.Token.Kind

/-! # Tokens

A token is its kind, the text it was read from, the value it carries, and the line it begins on. It
is shown by the three first of these. Two equalities are at hand: `=` is that of the data, `eqv`
compares numbers by value. -/

namespace LoxLex

/-! ### Values -/

/-- The value that a token carries. -/
inductive Literal where
  /-- No value: every token but a number or a string. -/
  | absent
  /-- The value of a number. -/
  | number (value : Binary64)
  /-- The text between the quotes of a string. -/
  | text (value : Text)
  deriving DecidableEq, Repr

namespace Literal

/-- A value as shown. -/
def display : Literal → Text
  | absent => "null".toList
  | number value => value.display
  | text value => value

/-- Equality of values: numbers as binary64 numbers, texts character by character. -/
def eqv : Literal → Literal → Bool
  | absent, absent => true
  | number x, number y => x.eqv y
  | text s, text t => s == t
  | _, _ => false

end Literal

/-! ### Tokens -/

/-- A token of a source text. -/
structure Token where
  kind : TokenKind
  lexeme : Text
  literal : Literal
  line : Nat
  deriving DecidableEq, Repr

namespace Token

/-- The token that stands at the end of every source. -/
def endOfInput (line : Nat) : Token := ⟨.endOfInput, [], .absent, line⟩

/-- A token as shown: kind, lexeme and value, with one space between. -/
def display (t : Token) : Text :=
  t.kind.name ++ ' ' :: (t.lexeme ++ ' ' :: t.literal.display)

/-- Equality of tokens, with numbers compared by value. -/
def eqv (s t : Token) : Bool :=
  s.kind == t.kind && s.lexeme == t.lexeme && s.literal.eqv t.literal && s.line == t.line

end Token

end LoxLex
