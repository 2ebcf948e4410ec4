import LoxLex.Piece.Basic

/-! # The text of a piece

A piece and the text behind it make up the text it was taken from, and a piece is never empty.
Main statements: `text_append_front` and `text_front_ne_nil`; `length_front_lt` is what a scan ends
by. -/

namespace LoxLex

namespace Piece

/-! ### Divisions -/

/-- A text and its division into a piece and what is behind it: the piece is not empty and nothing
is lost. -/
def Divides (t : Text) (p : Piece × Text) : Prop := p.1.text ++ p.2 = t ∧ p.1.text ≠ []

/-- A token of one character divides the text: `c` in front of `rest`. -/
theorem divides_single (kind : TokenKind) (c : Char) (rest : Text) :
    Divides (c :: rest) (single kind c rest) := by
  simp [Divides, single]

/-- An operator divides the text, be it followed by `=` or not. -/
theorem divides_operator (alone withEqual : TokenKind) (c : Char) (rest : Text) :
    Divides (c :: rest) (operator alone withEqual c rest) := by
  unfold operator
  split
  · simp [Divides]
  · exact divides_single ..

/-- What begins with a slash divides the text, whether the end of a comment is searched or not. -/
theorem divides_slash (search : Bool) (rest : Text) :
    Divides ('/' :: rest) (slash search rest) := by
  unfold slash
  split
  · simp [Divides, List.takeWhile_append_dropWhile]
  · split
    · split <;> simp [Divides]
    · exact divides_single ..
  · exact divides_single ..

/-- A string divides the text, be it closed or not. -/
theorem divides_string (rest : Text) : Divides ('"' :: rest) (string rest) := by
  unfold string
  split
  · simp [Divides]
  next c behind h =>
    have hc : c = '"' := by
      have := List.head?_dropWhile_not (· ≠ '"') rest
      rw [h] at this
      simpa using this
    subst hc
    refine ⟨?_, by simp⟩
    have hsplit := List.takeWhile_append_dropWhile (p := fun x => decide (x ≠ '"')) (l := rest)
    rw [h] at hsplit
    simpa using hsplit

/-- A numeral divides the text: `lexeme`, which is not empty, in front of `rest`. -/
theorem divides_numeral {lexeme : Text} (rest : Text) (h : lexeme ≠ []) :
    Divides (lexeme ++ rest) (numeral lexeme rest) := by
  unfold numeral
  split <;> exact ⟨rfl, h⟩

/-- A run that the first character belongs to is not empty: `p c` gives
`(c :: rest).takeWhile p ≠ []`. -/
theorem takeWhile_cons_ne_nil {p : Char → Bool} {c : Char} {rest : Text} (h : p c = true) :
    (c :: rest).takeWhile p ≠ [] := by
  simp [h]

/-- A number divides the text that begins with its first digit. -/
theorem divides_number {c : Char} {rest : Text} (h : c.isDigit = true) :
    Divides (c :: rest) (number (c :: rest)) := by
  have hne : (c :: rest).takeWhile Char.isDigit ≠ [] := takeWhile_cons_ne_nil h
  have hsplit := List.takeWhile_append_dropWhile (p := Char.isDigit) (l := c :: rest)
  unfold number
  split
  next behind heq =>
    rw [heq] at hsplit
    split
    · have hlong :
          (c :: rest).takeWhile Char.isDigit ++ '.' :: behind.takeWhile Char.isDigit ≠ [] := by simp
      have := divides_numeral (behind.dropWhile Char.isDigit) hlong
      rwa [List.append_assoc, List.cons_append, List.takeWhile_append_dropWhile, hsplit] at this
    · have := divides_numeral ('.' :: behind) hne
      rwa [hsplit] at this
  · have := divides_numeral ((c :: rest).dropWhile Char.isDigit) hne
    rwa [hsplit] at this

/-- A word divides the text that begins with its first character. -/
theorem divides_word {c : Char} {rest : Text} (h : isWordChar c = true) :
    Divides (c :: rest) (word (c :: rest)) :=
  ⟨List.takeWhile_append_dropWhile, takeWhile_cons_ne_nil h⟩

/-! ### What the class of a character tells of it -/

/-- The class `slash` has one character, `/`. -/
theorem eq_of_of_eq_slash {c : Char} (h : CharClass.of c = .slash) : c = '/' := by
  unfold CharClass.of at h
  split at h <;> grind

/-- The class `quote` has one character, the double quote. -/
theorem eq_of_of_eq_quote {c : Char} (h : CharClass.of c = .quote) : c = '"' := by
  unfold CharClass.of at h
  split at h <;> grind

/-- Characters of the class `digit` are decimal digits. -/
theorem isDigit_of_of_eq_digit {c : Char} (h : CharClass.of c = .digit) : c.isDigit = true := by
  unfold CharClass.of at h
  split at h <;> grind

/-- Characters of the class `letter` are letters of ASCII. -/
theorem isAlpha_of_of_eq_letter {c : Char} (h : CharClass.of c = .letter) : c.isAlpha = true := by
  unfold CharClass.of at h
  split at h <;> grind

/-! ### The piece at the front -/

/-- **The front of a text** divides it, whatever the class of its first character. -/
theorem divides_front (search : Bool) (c : Char) (rest : Text) :
    Divides (c :: rest) (front search c rest) := by
  unfold front
  split
  · exact divides_single ..
  · exact divides_operator ..
  next h => rw [eq_of_of_eq_slash h]; exact divides_slash ..
  · simp [Divides]
  next h => rw [eq_of_of_eq_quote h]; exact divides_string ..
  next h => exact divides_number (isDigit_of_of_eq_digit h)
  next h => exact divides_word (by simp [isWordChar, isAlpha_of_of_eq_letter h])
  · simp [Divides]

/-- Nothing is lost between a piece and the text behind it. -/
theorem text_append_front (search : Bool) (c : Char) (rest : Text) :
    (front search c rest).1.text ++ (front search c rest).2 = c :: rest :=
  (divides_front search c rest).1

/-- A piece is not empty. -/
theorem text_front_ne_nil (search : Bool) (c : Char) (rest : Text) :
    (front search c rest).1.text ≠ [] :=
  (divides_front search c rest).2

/-- The text behind a piece is shorter than the text the piece was taken from. -/
theorem length_front_lt (search : Bool) (c : Char) (rest : Text) :
    (front search c rest).2.length < (c :: rest).length := by
  have h := congrArg List.length (text_append_front search c rest)
  have := List.length_pos_iff.2 (text_front_ne_nil search c rest)
  rw [List.length_append] at h
  omega

end Piece

/-! ### The characters of a class -/

/-- The characters of the class `punctuation kind`, for whatever kind. -/
theorem mem_of_of_eq_punctuation {c : Char} {kind : TokenKind}
    (h : CharClass.of c = .punctuation kind) :
    c ∈ ['(', ')', '{', '}', ',', '.', '-', '+', ';', '*', '/'] := by
  unfold CharClass.of at h
  split at h <;> first | decide | grind

/-- The characters that begin an operator, for whatever kinds. -/
theorem mem_of_of_eq_operator {c : Char} {alone withEqual : TokenKind}
    (h : CharClass.of c = .operator alone withEqual) : c ∈ ['!', '=', '<', '>'] := by
  unfold CharClass.of at h
  split at h <;> grind

/-- The characters of the class `blank`. -/
theorem mem_of_of_eq_blank {c : Char} (h : CharClass.of c = .blank) :
    c ∈ [' ', '\t', '\r', '\n'] := by
  unfold CharClass.of at h
  split at h <;> grind

/-- Inside a word stand letters, digits and hyphens. -/
theorem isWordChar_iff {c : Char} : isWordChar c = true ↔ c.isAlpha ∨ c.isDigit ∨ c = '-' := by
  simp [isWordChar, or_assoc]

end LoxLex
