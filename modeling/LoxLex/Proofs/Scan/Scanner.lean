import LoxLex.Proofs.Text.Slice
import LoxLex.Scan.Basic

/-! # The scanner

The scanner reads a source character by character and knows its place as a number of bytes. It
calls for one piece after the other, and in a call it is in some phase: in a comment, a string, a
number, a word. Whatever it reads of the source it gets as a slice from its offsets, so a move is
partial: it fails if there is no such slice. A search for the end of a comment that fails sets the
scanner back behind the slash. A move goes past one character at most, so no state is left out
between two of them. That no move fails is shown in `Proofs/Scan/Offsets`, and what comes of a run
in `Proofs/Scan/Calls`. -/

namespace LoxLex

/-- What a scanner is about. -/
inductive Phase where
  /-- Between two calls, or about to return from one. -/
  | between
  /-- Behind an operator that an equals sign may extend. -/
  | operator (alone withEqual : TokenKind)
  /-- Behind a slash. -/
  | slash
  | lineComment
  /-- In search of the end of a comment, with the place to go back to. -/
  | blockComment (offset line : Nat)
  /-- Before the second character of a close mark. -/
  | closing
  | string
  /-- In the digits in front of a point. -/
  | whole
  /-- In the digits behind a point. -/
  | fraction
  | word
  deriving DecidableEq, Repr

/-- A scanner: where the piece begins that is called for, where it stands, from where the end of a
comment was last looked for in vain, how many pieces it has called for, and what it has found. -/
structure Scanner where
  start : Nat := 0
  startLine : Nat := 1
  current : Nat := 0
  line : Nat := 1
  barrenFrom : Option Nat := none
  phase : Phase := .between
  calls : Nat := 0
  tokens : List Token := []
  errors : List LexicalError := []
  deriving DecidableEq, Repr

namespace Scanner

/-! ### Looking at the source -/

/-- Whether the source ends here. -/
def atEnd (source : Text) (m : Scanner) : Bool := utf8Length source ≤ m.current

/-- The next character. -/
def peek? (source : Text) (m : Scanner) : Option (Option Char) :=
  (sliceFrom? source m.current).map List.head?

/-- The character after the next. -/
def peekSecond? (source : Text) (m : Scanner) : Option (Option Char) :=
  (sliceFrom? source m.current).map fun rest => rest.tail.head?

/-- The text from the beginning of the piece to here. -/
def lexeme? (source : Text) (m : Scanner) : Option Text := slice? source m.start m.current

/-! ### Going on -/

/-- The scanner in another phase. -/
def enter (m : Scanner) (phase : Phase) : Scanner := { m with phase }

/-- The scanner behind the next character, if there is one. -/
def advance (m : Scanner) : Option Char → Scanner
  | some c => { m with current := m.current + c.utf8Size }
  | none => m

/-- The scanner on the line where a character ends. -/
def countLine (m : Scanner) (c : Char) : Scanner :=
  if c = '\n' then { m with line := m.line + 1 } else m

/-- The scanner at the beginning of a call. -/
def called (m : Scanner) : Scanner :=
  { m with start := m.current, startLine := m.line, calls := m.calls + 1 }

/-- The scanner set back to where it did not find the end of a comment. -/
def rewound (m : Scanner) (offset line : Nat) : Scanner :=
  { m with current := offset, line, barrenFrom := some offset }

/-- Whether it is known that no comment that begins here has an end. -/
def knowsBarren (m : Scanner) : Bool := m.barrenFrom.any (· ≤ m.current)

/-- Returns with a token. -/
def addToken? (source : Text) (m : Scanner) (kind : TokenKind) (literal : Literal) :
    Option Scanner := do
  let lexeme ← m.lexeme? source
  let token : Token := ⟨kind, lexeme, literal, m.startLine⟩
  some { m with phase := .between, tokens := m.tokens ++ [token] }

/-- Returns with an error. -/
def report (m : Scanner) (e : LexicalError) : Scanner :=
  { m with phase := .between, errors := m.errors ++ [e] }

/-! ### Moves -/

/-- Goes past the next character with `pass` if it is of a sort, and else stops. -/
def while? (source : Text) (m : Scanner) (p : Char → Bool) (pass : Char → Scanner)
    (stop : Option Scanner) : Option Scanner := do
  match (← m.peek? source).filter p with
  | some c => some (pass c)
  | none => stop

/-- Behind an operator: an equals sign belongs to it. -/
def operator? (source : Text) (m : Scanner) (alone withEqual : TokenKind) : Option Scanner := do
  if (← m.peek? source) = some '=' then (m.advance (some '=')).addToken? source withEqual .absent
  else m.addToken? source alone .absent

/-- Behind a slash: another one or a star begins a comment. -/
def slash? (source : Text) (m : Scanner) : Option Scanner := do
  match ← m.peek? source with
  | some '/' => some ((m.advance (some '/')).enter .lineComment)
  | some '*' =>
    if m.knowsBarren then m.addToken? source .slash .absent
    else some (m.enter (.blockComment m.current m.line))
  | _ => m.addToken? source .slash .absent

/-- In search of the end of a comment. Without one the slash is a token, and all behind it is read
again. -/
def blockComment? (source : Text) (m : Scanner) (offset line : Nat) : Option Scanner := do
  if m.atEnd source then (m.rewound offset line).addToken? source .slash .absent
  else
    match ← m.peek? source with
    | some c =>
      if c = '*' ∧ (← m.peekSecond? source) = some '/' then
        some ((m.advance (some '*')).enter .closing)
      else some ((m.advance (some c)).countLine c)
    | none => some m

/-- Past the second character of a close mark. -/
def closing? (source : Text) (m : Scanner) : Option Scanner := do
  some ((m.advance (← m.peek? source)).enter .between)

/-- At the end of a string: past the quote, and the text without its quotes. -/
def closeString? (source : Text) (m : Scanner) : Option Scanner := do
  if m.atEnd source then some (m.report (.unterminatedString m.line))
  else
    let m := m.advance (← m.peek? source)
    let lexeme ← m.lexeme? source
    let text ← slice? lexeme 1 (utf8Length lexeme - 1)
    m.addToken? source .string (.text text)

/-- At the end of a number. -/
def number? (source : Text) (m : Scanner) : Option Scanner := do
  let lexeme ← m.lexeme? source
  match Numeral.ofText? lexeme with
  | some n => m.addToken? source .number (.number n.value)
  | none => some (m.report (.invalidNumber m.line lexeme))

/-- Behind the first digits of a number: a point with a digit behind it belongs to it. -/
def point? (source : Text) (m : Scanner) : Option Scanner := do
  if (← m.peek? source) = some '.' ∧ (← m.peekSecond? source).any Char.isDigit then
    some ((m.advance (some '.')).enter .fraction)
  else m.number? source

/-- At the end of a word. -/
def word? (source : Text) (m : Scanner) : Option Scanner := do
  let lexeme ← m.lexeme? source
  m.addToken? source (Piece.wordKind lexeme) .absent

/-- The call for a piece: past its first character, which tells what to do next. Without a
character it returns with nothing. -/
def call? (source : Text) (m : Scanner) : Option Scanner := do
  match ← m.called.peek? source with
  | none => some m.called
  | some c =>
    let m := m.called.advance (some c)
    match CharClass.of c with
    | .punctuation kind => m.addToken? source kind .absent
    | .operator alone withEqual => some (m.enter (.operator alone withEqual))
    | .slash => some (m.enter .slash)
    | .blank => some (m.countLine c)
    | .quote => some (m.enter .string)
    | .digit => some (m.enter .whole)
    | .letter => some (m.enter .word)
    | .other => some (m.report (.unexpectedCharacter m.line c))

/-- The next move, if every slice that it needs is there. -/
def move? (source : Text) (m : Scanner) : Option Scanner :=
  match m.phase with
  | .between => m.call? source
  | .operator alone withEqual => m.operator? source alone withEqual
  | .slash => m.slash? source
  | .lineComment => m.while? source (· ≠ '\n') (m.advance ∘ some) (some (m.enter .between))
  | .blockComment offset line => m.blockComment? source offset line
  | .closing => m.closing? source
  | .string =>
    m.while? source (· ≠ '"') (fun c => (m.countLine c).advance (some c))
      (m.closeString? source)
  | .whole => m.while? source Char.isDigit (m.advance ∘ some) (m.point? source)
  | .fraction => m.while? source Char.isDigit (m.advance ∘ some) (m.number? source)
  | .word => m.while? source isWordChar (m.advance ∘ some) (m.word? source)

/-! ### Runs -/

/-- Whether the scanner calls for no more pieces. -/
def halted (source : Text) (m : Scanner) : Bool := m.phase = .between && m.atEnd source

/-- The states that a scanner of a source comes through. -/
inductive Reached (source : Text) : Scanner → Prop where
  /-- In front of the source. -/
  | start : Reached source {}
  /-- A move further on. -/
  | move {m next : Scanner} (before : Reached source m) (going : m.halted source = false)
      (move : m.move? source = some next) : Reached source next

/-- From inside a call the scanner comes to where the call returns. -/
inductive Returns (source : Text) : Scanner → Scanner → Prop where
  /-- The call returns here. -/
  | here {m : Scanner} (phase : m.phase = .between) : Returns source m m
  /-- The call goes on with a move. -/
  | move {m next last : Scanner} (phase : m.phase ≠ .between) (move : m.move? source = some next)
      (more : Returns source next last) : Returns source m last

/-- A call from one state that returns in another. -/
def Call (source : Text) (m last : Scanner) : Prop :=
  ∃ next, m.move? source = some next ∧ Returns source next last

end Scanner

end LoxLex
