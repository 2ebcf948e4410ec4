import LoxLex.Text.Basic

/-! # Kinds of tokens

The reserved words of Lox and the kinds that its tokens have, with the name of each kind. No two
words have one spelling and no two kinds one name, so both can be read back (`Keyword.ofText?`,
`TokenKind.ofName?`). -/

namespace LoxLex

/-! ### Reserved words -/

/-- A reserved word. -/
inductive Keyword where
  | andWord | classWord | elseWord | falseWord | funWord | forWord | ifWord | nilWord | orWord
  | printWord | returnWord | superWord | thisWord | trueWord | varWord | whileWord
  deriving DecidableEq, Repr

namespace Keyword

/-- Every reserved word. -/
def all : List Keyword :=
  [andWord, classWord, elseWord, falseWord, funWord, forWord, ifWord, nilWord, orWord,
    printWord, returnWord, superWord, thisWord, trueWord, varWord, whileWord]

/-- How a reserved word is written. -/
def spelling : Keyword → Text
  | andWord => "and".toList
  | classWord => "class".toList
  | elseWord => "else".toList
  | falseWord => "false".toList
  | funWord => "fun".toList
  | forWord => "for".toList
  | ifWord => "if".toList
  | nilWord => "nil".toList
  | orWord => "or".toList
  | printWord => "print".toList
  | returnWord => "return".toList
  | superWord => "super".toList
  | thisWord => "this".toList
  | trueWord => "true".toList
  | varWord => "var".toList
  | whileWord => "while".toList

/-- The reserved word that a text spells, if it spells one; case counts. -/
def ofText? (t : Text) : Option Keyword := all.find? (·.spelling == t)

/-- The list of reserved words has them all. -/
theorem mem_all (w : Keyword) : w ∈ all := by cases w <;> decide

/-- Reading undoes spelling. -/
theorem ofText?_spelling (w : Keyword) : ofText? w.spelling = some w := by cases w <;> decide

end Keyword

/-! ### Kinds -/

/-- What a token is. -/
inductive TokenKind where
  | leftParen | rightParen | leftBrace | rightBrace
  | comma | dot | minus | plus | semicolon | slash | star
  | bang | bangEqual | equal | equalEqual | greater | greaterEqual | less | lessEqual
  | keyword (word : Keyword)
  | identifier | string | number
  | endOfInput
  deriving DecidableEq, Repr

namespace TokenKind

/-- Every kind. -/
def all : List TokenKind :=
  [leftParen, rightParen, leftBrace, rightBrace, comma, dot, minus, plus, semicolon, slash, star,
    bang, bangEqual, equal, equalEqual, greater, greaterEqual, less, lessEqual]
  ++ Keyword.all.map keyword ++ [identifier, string, number, endOfInput]

/-- The name of a kind; that of a reserved word is the word in capitals. -/
def name : TokenKind → Text
  | leftParen => "LEFT_PAREN".toList
  | rightParen => "RIGHT_PAREN".toList
  | leftBrace => "LEFT_BRACE".toList
  | rightBrace => "RIGHT_BRACE".toList
  | comma => "COMMA".toList
  | dot => "DOT".toList
  | minus => "MINUS".toList
  | plus => "PLUS".toList
  | semicolon => "SEMICOLON".toList
  | slash => "SLASH".toList
  | star => "STAR".toList
  | bang => "BANG".toList
  | bangEqual => "BANG_EQUAL".toList
  | equal => "EQUAL".toList
  | equalEqual => "EQUAL_EQUAL".toList
  | greater => "GREATER".toList
  | greaterEqual => "GREATER_EQUAL".toList
  | less => "LESS".toList
  | lessEqual => "LESS_EQUAL".toList
  | keyword word => word.spelling.map Char.toUpper
  | identifier => "IDENTIFIER".toList
  | string => "STRING".toList
  | number => "NUMBER".toList
  | endOfInput => "EOF".toList

/-- The kind of a given name, if there is one. -/
def ofName? (t : Text) : Option TokenKind := all.find? (·.name == t)

/-- The list of kinds has them all. -/
theorem mem_all (k : TokenKind) : k ∈ all := by
  cases k with
  | keyword word => cases word <;> decide
  | _ => decide

/-- Reading undoes naming. -/
theorem ofName?_name (k : TokenKind) : ofName? k.name = some k := by
  cases k with
  | keyword word => cases word <;> decide
  | _ => decide

end TokenKind

end LoxLex
