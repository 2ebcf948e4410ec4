/-! # Text

A text is its list of characters. Two measures of it are kept beside the type: the number of line
ends, which line numbers are counted in, and the number of bytes of its UTF-8 form, which offsets
are counted in. Both turn concatenation into addition. -/

namespace LoxLex

/-- A text, as the list of its characters. -/
abbrev Text := List Char

/-- What streams and files hold. -/
abbrev Bytes := List UInt8

/-- The number of line ends in a text: only `'\n'` ends a line. -/
def newlines (t : Text) : Nat := t.count '\n'

/-- The number of bytes that a text takes in UTF-8. -/
def utf8Length (t : Text) : Nat := t.foldl (fun n c => n + c.utf8Size) 0

/-- A natural number in decimal digits. -/
def decimalText (n : Nat) : Text := Nat.toDigits 10 n

/-! ### The measures of a concatenation -/

/-- `newlines [] = 0`. -/
@[simp] theorem newlines_nil : newlines [] = 0 := rfl

/-- The line ends of a concatenation: `newlines (s ++ t) = newlines s + newlines t`. -/
@[simp] theorem newlines_append (s t : Text) : newlines (s ++ t) = newlines s + newlines t :=
  List.count_append

/-- A line end counts: `newlines ('\n' :: t) = newlines t + 1`. -/
@[simp] theorem newlines_cons_self (t : Text) : newlines ('\n' :: t) = newlines t + 1 :=
  List.count_cons_self

/-- `utf8Length [] = 0`. -/
@[simp] theorem utf8Length_nil : utf8Length [] = 0 := rfl

/-- Counting bytes on from `n` adds the length to `n`. -/
theorem foldl_utf8Size (t : Text) (n : Nat) :
    t.foldl (fun n c => n + c.utf8Size) n = n + utf8Length t := by
  induction t generalizing n with
  | nil => rfl
  | cons c t ih =>
    rw [utf8Length, List.foldl_cons, List.foldl_cons, ih, ih (0 + c.utf8Size)]
    omega

/-- The bytes of the first character come first:
`utf8Length (c :: t) = c.utf8Size + utf8Length t`. -/
@[simp] theorem utf8Length_cons (c : Char) (t : Text) :
    utf8Length (c :: t) = c.utf8Size + utf8Length t := by
  rw [utf8Length, List.foldl_cons, foldl_utf8Size, Nat.zero_add]

/-- The length of a concatenation: `utf8Length (s ++ t) = utf8Length s + utf8Length t`. -/
@[simp] theorem utf8Length_append (s t : Text) :
    utf8Length (s ++ t) = utf8Length s + utf8Length t := by
  rw [utf8Length, List.foldl_append, foldl_utf8Size]
  rfl

end LoxLex
