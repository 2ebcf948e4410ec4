import LoxLex.Numeral
import LoxLex.Piece.CharClass
import LoxLex.Token.Basic

/-! # Pieces of source

A source text falls into pieces: tokens, blanks, comments, and what is none of these. `Piece.front`
takes the piece at the front of a text, which is as long as its kind allows, and the text behind it.
Nothing is lost and no piece is empty (`text_append_front`, `text_front_ne_nil`).

A block comment ends with the first `*/` at or after the star that opens it. If there is none, its
slash is an operator and the star a piece of its own. That verdict takes a look at all of the text,
so the caller may say that it is known beforehand. -/

namespace LoxLex

/-- What a piece of source is. -/
inductive Item where
  /-- A token of some kind, with the value it carries. -/
  | token (kind : TokenKind) (literal : Literal)
  /-- One character of space between tokens. -/
  | blank
  /-- Two slashes and the rest of their line. -/
  | lineComment
  /-- A closed block comment. -/
  | blockComment
  /-- A quote that no other quote follows, and all the text behind it. -/
  | openString
  /-- A run of digits without a value. -/
  | badNumber
  /-- One character that begins nothing. -/
  | stray (c : Char)
  deriving DecidableEq, Repr

/-- A piece of source. It is `barren` if the end of a comment was looked for from here in vain. -/
structure Piece where
  item : Item
  text : Text
  barren : Bool := false
  deriving DecidableEq, Repr

/-! ### The end of a block comment -/

/-- Counts the characters up to and with the first `*/`, on top of those counted before. -/
def closeEndFrom (n : Nat) : Text → Option Nat
  | [] => none
  | c :: rest =>
    if c = '*' ∧ rest.head? = some '/' then some (n + 2) else closeEndFrom (n + 1) rest

/-- How many characters of a text the first `*/` ends, if there is one. -/
def closeEnd? (t : Text) : Option Nat := closeEndFrom 0 t

/-- Counting on from `n` only adds `n`: `closeEndFrom n t = (closeEnd? t).map (n + ·)`. -/
theorem closeEndFrom_eq (n : Nat) (t : Text) : closeEndFrom n t = (closeEnd? t).map (n + ·) := by
  induction t generalizing n with
  | nil => rfl
  | cons c rest ih =>
    rw [closeEnd?, closeEndFrom, closeEndFrom]
    split
    · simp
    · rw [ih, ih (0 + 1)]
      simp [Function.comp_def, Nat.add_assoc]

namespace Piece

/-! ### One kind after the other

Each function gets the text that begins with the piece, or what follows its first character where
that character is known. -/

/-- A token of one character. -/
def single (kind : TokenKind) (c : Char) (rest : Text) : Piece × Text :=
  (⟨.token kind .absent, [c], false⟩, rest)

/-- An operator that an equals sign may extend. -/
def operator (alone withEqual : TokenKind) (c : Char) (rest : Text) : Piece × Text :=
  match rest with
  | '=' :: behind => (⟨.token withEqual .absent, [c, '='], false⟩, behind)
  | _ => single alone c rest

/-- A slash, with what follows it: a line comment, a block comment, or an operator. -/
def slash (search : Bool) (rest : Text) : Piece × Text :=
  match rest with
  | '/' :: _ =>
    (⟨.lineComment, '/' :: rest.takeWhile (· ≠ '\n'), false⟩, rest.dropWhile (· ≠ '\n'))
  | '*' :: _ =>
    if search then
      match closeEnd? rest with
      | some n => (⟨.blockComment, '/' :: rest.take n, false⟩, rest.drop n)
      | none => (⟨.token .slash .absent, ['/'], true⟩, rest)
    else single .slash '/' rest
  | _ => single .slash '/' rest

/-- A quote, with what follows it: a string up to the next quote, or an open one. -/
def string (rest : Text) : Piece × Text :=
  let body := rest.takeWhile (· ≠ '"')
  match rest.dropWhile (· ≠ '"') with
  | [] => (⟨.openString, '"' :: rest, false⟩, [])
  | _ :: behind => (⟨.token .string (.text body), '"' :: (body ++ ['"']), false⟩, behind)

/-- A run of digits as a piece. -/
def numeral (lexeme rest : Text) : Piece × Text :=
  match Numeral.ofText? lexeme with
  | some n => (⟨.token .number (.number n.value), lexeme, false⟩, rest)
  | none => (⟨.badNumber, lexeme, false⟩, rest)

/-- A text that begins with a digit: a number. A point belongs to it only if a digit follows. -/
def number (t : Text) : Piece × Text :=
  let whole := t.takeWhile Char.isDigit
  match t.dropWhile Char.isDigit with
  | '.' :: behind =>
    if behind.head?.any Char.isDigit then
      numeral (whole ++ '.' :: behind.takeWhile Char.isDigit) (behind.dropWhile Char.isDigit)
    else numeral whole ('.' :: behind)
  | rest => numeral whole rest

/-- The kind of a word: reserved or free. -/
def wordKind (t : Text) : TokenKind :=
  match Keyword.ofText? t with
  | some word => .keyword word
  | none => .identifier

/-- A text that begins with a letter: a word. -/
def word (t : Text) : Piece × Text :=
  let lexeme := t.takeWhile isWordChar
  (⟨.token (wordKind lexeme) .absent, lexeme, false⟩, t.dropWhile isWordChar)

/-! ### The piece at the front -/

/-- The piece at the front of a text that begins with `c`, and the text behind it. Unless `search`
is set, the end of a block comment is known to be missing. -/
def front (search : Bool) (c : Char) (rest : Text) : Piece × Text :=
  match CharClass.of c with
  | .punctuation kind => single kind c rest
  | .operator alone withEqual => operator alone withEqual c rest
  | .slash => slash search rest
  | .blank => (⟨.blank, [c], false⟩, rest)
  | .quote => string rest
  | .digit => number (c :: rest)
  | .letter => word (c :: rest)
  | .other => (⟨.stray c, [c], false⟩, rest)

end Piece

end LoxLex
