import LoxLex.Piece.Basic
import LoxLex.Proofs.Piece.CommentEnd
import LoxLex.Proofs.Text.Run

/-! # Leading pieces

`Piece.Leads p behind` says, rule by rule, that `p` is the piece at the front of a text that goes on
with `behind`: what the piece is written as, and what the text behind it must not begin with. The
rules say nothing of how the piece is found; that `Piece.front` finds it, and no other, is in
`Proofs/Piece/Front`. A piece overlooks a change of `behind` that brings nothing of what it looks
for (`Leads.of_overlooks`). So a text that is cut short behind a piece still begins with it
(`Leads.of_append`). -/

namespace LoxLex

/-- One or more decimal digits. -/
def IsDigits (t : Text) : Prop := t ≠ [] ∧ ∀ c ∈ t, c.isDigit = true

/-- Digits with digits behind them are digits. -/
theorem IsDigits.append {t u : Text} (ht : IsDigits t) (hu : ∀ c ∈ u, c.isDigit = true) :
    IsDigits (t ++ u) :=
  ⟨List.append_ne_nil_of_left_ne_nil ht.1 u, List.forall_mem_append.2 ⟨ht.2, hu⟩⟩

namespace Piece

/-- A piece as such, without the mark of a search that failed. -/
def unmarked (p : Piece) : Piece := { p with barren := false }

/-- Without its mark a piece has the same text: `p.unmarked.text = p.text`. -/
@[simp] theorem text_unmarked (p : Piece) : p.unmarked.text = p.text := rfl

/-- **Leading pieces.** `Leads p behind`: the piece `p` is at the front of `p.text ++ behind`. -/
inductive Leads : Piece → Text → Prop where
  /-- A token of one character needs nothing of what follows. -/
  | punctuation {c : Char} {kind : TokenKind} {behind : Text}
      (class_eq : CharClass.of c = .punctuation kind) :
      Leads { item := .token kind .absent, text := [c] } behind
  /-- An operator stands alone where no equals sign follows. -/
  | operatorAlone {c : Char} {alone withEqual : TokenKind} {behind : Text}
      (class_eq : CharClass.of c = .operator alone withEqual) (stops : Stops (· == '=') behind) :
      Leads { item := .token alone .absent, text := [c] } behind
  /-- An equals sign behind an operator belongs to it. -/
  | operatorWithEqual {c : Char} {alone withEqual : TokenKind} {behind : Text}
      (class_eq : CharClass.of c = .operator alone withEqual) :
      Leads { item := .token withEqual .absent, text := [c, '='] } behind
  /-- A slash is an operator where it begins no comment: a star behind it needs a close mark. -/
  | slash {behind : Text} (stops : Stops (· == '/') behind)
      (unclosed : behind.head? = some '*' → ¬ closeMark <:+: behind) :
      Leads { item := .token .slash .absent, text := ['/'] } behind
  /-- A line comment goes to the end of its line. -/
  | lineComment {body behind : Text} (inside : '\n' ∉ body) (stops : Stops (· ≠ '\n') behind) :
      Leads { item := .lineComment, text := '/' :: '/' :: body } behind
  /-- A block comment goes to its first close mark. -/
  | blockComment {body behind : Text} (star : body.head? = some '*')
      (closes : ClosesAtEnd body) :
      Leads { item := .blockComment, text := '/' :: body } behind
  /-- Space between tokens goes one character at a time. -/
  | blank {c : Char} {behind : Text} (class_eq : CharClass.of c = .blank) :
      Leads { item := .blank, text := [c] } behind
  /-- A string goes to the next quote. -/
  | string {body behind : Text} (inside : '"' ∉ body) :
      Leads { item := .token .string (.text body), text := '"' :: (body ++ ['"']) } behind
  /-- Without a next quote a string takes all there is. -/
  | openString {body : Text} (inside : '"' ∉ body) :
      Leads { item := .openString, text := '"' :: body } []
  /-- A run of digits is a number where no digit follows, nor a point with a digit behind it. -/
  | whole {t behind : Text} (digits : IsDigits t) (stops : Stops Char.isDigit behind)
      (point : behind.head? = some '.' → Stops Char.isDigit behind.tail) :
      Leads { item := .token .number (.number (Numeral.value ⟨digitsValue t, 0⟩)), text := t }
        behind
  /-- Two runs of digits with a point between are a number where no digit follows. -/
  | fraction {t u behind : Text} (digits : IsDigits t) (places : IsDigits u)
      (stops : Stops Char.isDigit behind) :
      Leads { item := .token .number (.number (Numeral.value ⟨digitsValue (t ++ u), u.length⟩)),
              text := t ++ '.' :: u } behind
  /-- A word goes on as long as its characters do. -/
  | word {c : Char} {t behind : Text} (class_eq : CharClass.of c = .letter)
      (inside : ∀ d ∈ t, isWordChar d = true) (stops : Stops isWordChar behind) :
      Leads { item := .token (wordKind (c :: t)) .absent, text := c :: t } behind
  /-- A character that begins nothing is a piece of its own. -/
  | stray {c : Char} {behind : Text} (class_eq : CharClass.of c = .other) :
      Leads { item := .stray c, text := [c] } behind

variable {p : Piece} {behind front back : Text}

/-! ### What a piece looks for

A piece leads a text for what it does not find there. So it does not notice a change of that text
that brings nothing of what it looks for: `Leads.of_overlooks` is the one case split on the rules
that laws on such changes need. -/

/-- The sorts of characters that a piece may go on with, and so must not find behind it. -/
def sought : List (Char → Bool) := [(· == '='), (· == '/'), Char.isDigit, isWordChar]

/-- No piece goes on with a blank. -/
theorem any_blank_of_mem_sought {q : Char → Bool} (h : q ∈ sought) :
    [' ', '\t', '\r', '\n'].any q = false := by
  simp only [sought, List.mem_cons, List.not_mem_nil, or_false] at h
  rcases h with rfl | rfl | rfl | rfl <;> rfl

/-- **Overlooking a change.** What the piece `p` asks of the text behind it, the text `back` grants
if `front` does. -/
structure Overlooks (p : Piece) (front back : Text) : Prop where
  run : ∀ q ∈ sought, Stops q front → Stops q back
  lineEnd : p.item = .lineComment → Stops (· ≠ '\n') front → Stops (· ≠ '\n') back
  /-- A number looks behind a point. -/
  point : (front.head? = some '.' → Stops Char.isDigit front.tail) →
    back.head? = some '.' → Stops Char.isDigit back.tail
  /-- A slash looks for a close mark. -/
  mark : p.text = ['/'] → (front.head? = some '*' → ¬ closeMark <:+: front) →
    back.head? = some '*' → ¬ closeMark <:+: back
  /-- Nothing comes behind a string that is left open. -/
  stop : p.item = .openString → front = [] → back = []

/-- A piece that leads a text leads it after a change that it overlooks. -/
theorem Leads.of_overlooks (h : p.Leads front) (hback : p.Overlooks front back) :
    p.Leads back := by
  have hequal := hback.run (· == '=') (by simp [sought])
  have hslash := hback.run (· == '/') (by simp [sought])
  have hdigit := hback.run Char.isDigit (by simp [sought])
  have hword := hback.run isWordChar (by simp [sought])
  cases h with
  | punctuation hc => exact .punctuation hc
  | operatorAlone hc hstops => exact .operatorAlone hc (hequal hstops)
  | operatorWithEqual hc => exact .operatorWithEqual hc
  | slash hstops hunclosed => exact .slash (hslash hstops) (hback.mark rfl hunclosed)
  | lineComment hinside hstops => exact .lineComment hinside (hback.lineEnd rfl hstops)
  | blockComment hstar hcloses => exact .blockComment hstar hcloses
  | blank hc => exact .blank hc
  | string hinside => exact .string hinside
  | openString hinside =>
    rw [hback.stop rfl rfl]
    exact .openString hinside
  | whole hdigits hstops hpoint => exact .whole hdigits (hdigit hstops) (hback.point hpoint)
  | fraction hdigits hplaces hstops => exact .fraction hdigits hplaces (hdigit hstops)
  | word hc hinside hstops => exact .word hc hinside (hword hstops)
  | stray hc => exact .stray hc

/-- A piece overlooks that the text behind it is cut short: what is not there is not found. -/
theorem overlooks_of_append (p : Piece) (front back : Text) :
    p.Overlooks (front ++ back) front where
  run _ _ hstops := hstops.of_append
  lineEnd _ hstops := hstops.of_append
  point hpoint hhead := by
    obtain ⟨more, rfl⟩ := List.head?_eq_some_iff.1 hhead
    exact (hpoint rfl).of_append
  mark _ hunclosed hstar hclose := by
    -- A close mark in what is left would be one in all that followed.
    have hhead : (front ++ back).head? = some '*' := by
      rw [List.head?_append, hstar, Option.some_or]
    exact hunclosed hhead (hclose.trans (List.prefix_append ..).isInfix)
  stop _ hnil := (List.append_eq_nil_iff.1 hnil).1

/-- **Cutting short.** A piece still leads when the text behind it is cut short: no rule asks for
more text than it sees, and a comment without a close mark gets none. -/
theorem Leads.of_append (h : p.Leads (front ++ back)) : p.Leads front :=
  h.of_overlooks (overlooks_of_append p front back)

/-- A leading piece is not empty. -/
theorem Leads.text_ne_nil (h : p.Leads behind) : p.text ≠ [] := by
  cases h with
  | whole hdigits => exact hdigits.1
  | _ => simp

end Piece

end LoxLex
