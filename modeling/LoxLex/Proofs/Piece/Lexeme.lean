import LoxLex.Proofs.Piece.Front

/-! # How tokens are written

`IsLexeme kind t` says that `t` is a way to write a token of a kind: the one way, for punctuation,
operators and reserved words, and any word that is not reserved, numeral or text in quotes for the
others. Kind and lexeme tell the value (`Literal.ofLexeme`). A lexeme by itself is a piece: the
token of that kind with that value (`leads_of_isLexeme`). -/

namespace LoxLex

/-- How a token of a kind is written, where there is one way to write it. -/
def TokenKind.spelling? : TokenKind → Option Text
  | leftParen => some ['(']
  | rightParen => some [')']
  | leftBrace => some ['{']
  | rightBrace => some ['}']
  | comma => some [',']
  | dot => some ['.']
  | minus => some ['-']
  | plus => some ['+']
  | semicolon => some [';']
  | slash => some ['/']
  | star => some ['*']
  | bang => some ['!']
  | bangEqual => some ['!', '=']
  | equal => some ['=']
  | equalEqual => some ['=', '=']
  | greater => some ['>']
  | greaterEqual => some ['>', '=']
  | less => some ['<']
  | lessEqual => some ['<', '=']
  | keyword word => some word.spelling
  | identifier | string | number | endOfInput => none

/-- **Lexemes.** The texts that tokens of a kind are written as. -/
inductive IsLexeme : TokenKind → Text → Prop where
  /-- A kind with one spelling. -/
  | spelling {kind : TokenKind} {t : Text} (eq : kind.spelling? = some t) : IsLexeme kind t
  /-- A letter, and letters, digits and hyphens behind it, that spell no reserved word. -/
  | identifier {c : Char} {t : Text} (letter : c.isAlpha = true)
      (inside : ∀ d ∈ t, d.isAlpha ∨ d.isDigit ∨ d = '-') (free : Keyword.ofText? (c :: t) = none) :
      IsLexeme .identifier (c :: t)
  /-- Digits. -/
  | whole {t : Text} (digits : IsDigits t) : IsLexeme .number t
  /-- Digits, a point, and digits. -/
  | fraction {t u : Text} (digits : IsDigits t) (places : IsDigits u) :
      IsLexeme .number (t ++ '.' :: u)
  /-- A text without a quote, between two quotes. -/
  | string {body : Text} (inside : '"' ∉ body) : IsLexeme .string ('"' :: (body ++ ['"']))

/-- The value of a token, by its kind and lexeme: that of a string is the text between the quotes,
that of a number the number nearest to what its digits write, divided by ten for each behind the
point. -/
def Literal.ofLexeme (kind : TokenKind) (lexeme : Text) : Literal :=
  match kind with
  | .string => .text lexeme.tail.dropLast
  | .number =>
    let places := (lexeme.dropWhile (· ≠ '.')).tail.length
    .number (Numeral.value ⟨digitsValue (lexeme.filter (· ≠ '.')), places⟩)
  | _ => .absent

/-- A token as a piece. -/
def Piece.ofLexeme (kind : TokenKind) (lexeme : Text) : Piece :=
  { item := .token kind (.ofLexeme kind lexeme), text := lexeme }

/-- The text of a token as a piece is its lexeme. -/
@[simp] theorem Piece.text_ofLexeme (kind : TokenKind) (lexeme : Text) :
    (ofLexeme kind lexeme).text = lexeme := rfl

/-! ### Values -/

/-- The point is no digit. -/
theorem IsDigits.ne_point {t : Text} (h : IsDigits t) : ∀ c ∈ t, decide (c ≠ '.') = true := by
  intro c hc
  refine decide_eq_true ?_
  rintro rfl
  exact absurd (h.2 _ hc) (by decide)

/-- The value of digits alone is that of the numeral without places. -/
theorem Literal.ofLexeme_whole {t : Text} (h : IsDigits t) :
    ofLexeme .number t = .number (Numeral.value ⟨digitsValue t, 0⟩) := by
  have hfilter : t.filter (· ≠ '.') = t := List.filter_eq_self.2 h.ne_point
  have hdrop : t.dropWhile (· ≠ '.') = [] := List.dropWhile_eq_nil_iff.2 h.ne_point
  rw [ofLexeme, hfilter, hdrop]
  rfl

/-- The value of digits with a point among them is that of the numeral with a place for each digit
behind the point. -/
theorem Literal.ofLexeme_fraction {t u : Text} (ht : IsDigits t) (hu : IsDigits u) :
    ofLexeme .number (t ++ '.' :: u) =
      .number (Numeral.value ⟨digitsValue (t ++ u), u.length⟩) := by
  have hpoint : Stops (· ≠ '.') ('.' :: u) := stops_cons.2 (by simp)
  have hfilter : (t ++ '.' :: u).filter (· ≠ '.') = t ++ u := by
    rw [List.filter_append, List.filter_eq_self.2 ht.ne_point, List.filter_cons_of_neg (by simp),
      List.filter_eq_self.2 hu.ne_point]
  rw [ofLexeme, hfilter, dropWhile_append_of_stops ht.ne_point hpoint]
  rfl

/-- The value of a string is the text between its quotes. -/
theorem Literal.ofLexeme_string (body : Text) :
    ofLexeme .string ('"' :: (body ++ ['"'])) = .text body := by
  rw [ofLexeme, List.tail_cons, List.dropLast_concat]

/-- A token of a kind with one spelling has no value. -/
theorem Literal.ofLexeme_of_spelling? {kind : TokenKind} {t : Text} (h : kind.spelling? = some t)
    (lexeme : Text) : ofLexeme kind lexeme = .absent := by
  cases kind <;> first | rfl | contradiction

/-! ### Blanks in lexemes -/

/-- Digits hold no blank. -/
theorem IsDigits.blank_not_mem {t : Text} {c : Char} (h : IsDigits t)
    (hc : CharClass.of c = .blank) : c ∉ t := by
  intro hmem
  rw [Piece.of_eq_digit (h.2 c hmem)] at hc
  contradiction

/-- The one spelling of a kind holds no blank. -/
theorem TokenKind.blank_not_mem_spelling {kind : TokenKind} {t : Text} {c : Char}
    (h : kind.spelling? = some t) (hc : CharClass.of c = .blank) : c ∉ t := by
  have hall : ∀ kind ∈ TokenKind.all,
      kind.spelling?.all (fun t => t.all fun c => CharClass.of c != .blank) = true := by decide
  have hkind := hall kind kind.mem_all
  rw [h] at hkind
  intro hmem
  have hne := List.all_eq_true.1 hkind c hmem
  rw [hc] at hne
  contradiction

/-- Of all lexemes only strings hold blanks. -/
theorem IsLexeme.blank_not_mem {kind : TokenKind} {t : Text} {c : Char} (h : IsLexeme kind t)
    (hkind : kind ≠ .string) (hc : CharClass.of c = .blank) : c ∉ t := by
  cases h with
  | spelling heq => exact TokenKind.blank_not_mem_spelling heq hc
  | identifier letter inside =>
    intro hmem
    have hword : c.isAlpha ∨ c.isDigit ∨ c = '-' := by
      rcases List.mem_cons.1 hmem with rfl | hin
      · exact .inl letter
      · exact inside c hin
    rcases hword with hletter | hdigit | rfl
    · rw [Piece.of_eq_letter hletter] at hc
      contradiction
    · rw [Piece.of_eq_digit hdigit] at hc
      contradiction
    · contradiction
  | whole digits => exact digits.blank_not_mem hc
  | fraction digits places =>
    rw [List.mem_append, List.mem_cons]
    rintro (hmem | rfl | hmem)
    · exact digits.blank_not_mem hc hmem
    · contradiction
    · exact places.blank_not_mem hc hmem
  | string => exact absurd rfl hkind

/-! ### Lexemes are pieces -/

namespace Piece

/-- A reserved word begins with a letter and goes on as words do. -/
theorem exists_spelling_eq_cons (w : Keyword) :
    ∃ c t, w.spelling = c :: t ∧ CharClass.of c = .letter ∧ ∀ d ∈ t, isWordChar d = true := by
  cases w <;> exact ⟨_, _, rfl, rfl, List.all_eq_true.1 rfl⟩

/-- A reserved word is read as its keyword: `wordKind w.spelling = .keyword w`. -/
theorem wordKind_spelling (w : Keyword) : wordKind w.spelling = .keyword w := by
  rw [wordKind, Keyword.ofText?_spelling]

/-- The one spelling of a kind is, by itself, a piece of that kind. -/
theorem leads_of_spelling? {kind : TokenKind} {t : Text} (h : kind.spelling? = some t) :
    Leads { item := .token kind .absent, text := t } [] := by
  cases kind with
  | identifier | string | number | endOfInput => contradiction
  | keyword w =>
    obtain rfl := Option.some.inj h
    obtain ⟨c, t, heq, hc, ht⟩ := exists_spelling_eq_cons w
    rw [← wordKind_spelling, heq]
    exact .word hc ht stops_nil
  | slash =>
    obtain rfl := Option.some.inj h
    exact .slash stops_nil (by simp)
  | bang | equal | greater | less =>
    obtain rfl := Option.some.inj h
    exact .operatorAlone rfl stops_nil
  | bangEqual | equalEqual | greaterEqual | lessEqual =>
    obtain rfl := Option.some.inj h
    exact .operatorWithEqual rfl
  | _ =>
    obtain rfl := Option.some.inj h
    exact .punctuation rfl

/-- A number ends where neither a digit nor a point follows. -/
theorem leads_of_isLexeme_number {t behind : Text} (h : IsLexeme .number t)
    (hdigit : Stops Char.isDigit behind) (hpoint : behind.head? ≠ some '.') :
    (ofLexeme .number t).Leads behind := by
  unfold ofLexeme
  cases h with
  | spelling heq => contradiction
  | whole digits =>
    rw [Literal.ofLexeme_whole digits]
    exact .whole digits hdigit fun hhead => absurd hhead hpoint
  | fraction digits places =>
    rw [Literal.ofLexeme_fraction digits places]
    exact .fraction digits places hdigit

/-- **A lexeme by itself is a piece.** -/
theorem leads_of_isLexeme {kind : TokenKind} {lexeme : Text} (h : IsLexeme kind lexeme) :
    (ofLexeme kind lexeme).Leads [] := by
  unfold ofLexeme
  cases h with
  | spelling heq =>
    rw [Literal.ofLexeme_of_spelling? heq]
    exact leads_of_spelling? heq
  | @identifier c t letter inside free =>
    have hinside : ∀ d ∈ t, isWordChar d = true := by
      intro d hd
      exact isWordChar_iff.2 (inside d hd)
    have hkind : wordKind (c :: t) = .identifier := by rw [wordKind, free]
    rw [← hkind]
    have hliteral : Literal.ofLexeme (wordKind (c :: t)) (c :: t) = .absent := by rw [hkind]; rfl
    rw [hliteral]
    exact .word (of_eq_letter letter) hinside stops_nil
  | whole digits => exact leads_of_isLexeme_number (.whole digits) stops_nil (by simp)
  | fraction digits places =>
    exact leads_of_isLexeme_number (.fraction digits places) stops_nil (by simp)
  | string inside =>
    rw [Literal.ofLexeme_string]
    exact .string inside

end Piece

end LoxLex
