import LoxLex.Proofs.Binary64.Nearest
import LoxLex.Proofs.Piece.Lexeme

/-! # What numerals denote

`denoted t` is the rational number that a numeral denotes, as it is read: all its digits as one
whole number, divided by ten for each digit behind the point. A numeral of any length carries the
binary64 number nearest to that (`exists_isNearest_of_isLexeme`), whatever the halves are that its
digits are taken in (`digitsValue_eq`). -/

namespace LoxLex

open Binary64

/-! ### Digits -/

/-- Digits are worth the same one by one and by halves. -/
theorem digitsValue_eq (t : Text) : digitsValue t = Nat.ofDigitChars 10 t 0 := by
  induction t using digitsValue.induct with
  | case1 t hshort =>
    have hstep : (fun n c => n * 10 + digitValue c) =
        fun n (c : Char) => 10 * n + (c.toNat - '0'.toNat) := by
      funext n c
      rw [Nat.mul_comm, digitValue]
    rw [digitsValue, if_pos hshort, hstep, Nat.ofDigitChars_eq_foldl]
  | case2 t hlong behind front ihfront ihbehind =>
    have hlength : (t.drop front).length = behind := by
      rw [List.length_drop]
      omega
    rw [digitsValue, if_neg hlong]
    show digitsValue (t.take front) * 10 ^ behind + digitsValue (t.drop front) = _
    conv_rhs => rw [← List.take_append_drop front t, Nat.ofDigitChars_append,
      Nat.ofDigitChars_eq_ofDigitChars_zero, hlength]
    rw [ihfront, ihbehind, Nat.mul_comm]

/-- The rational number that a numeral denotes. -/
def denoted (t : Text) : ℚ :=
  Nat.ofDigitChars 10 (t.filter Char.isDigit) 0 /
    10 ^ (t.dropWhile (· ≠ '.')).countP Char.isDigit

variable {t u : Text}

/-- Digits alone denote the whole number that they write: `denoted t = digitsValue t`. -/
theorem denoted_whole (h : IsDigits t) : denoted t = digitsValue t := by
  have hfilter : t.filter Char.isDigit = t := List.filter_eq_self.2 h.2
  have hdrop : t.dropWhile (· ≠ '.') = [] := List.dropWhile_eq_nil_iff.2 h.ne_point
  rw [denoted, hfilter, hdrop, digitsValue_eq]
  simp

/-- Digits with a point among them denote what they write without it, divided by ten for each digit
behind it. -/
theorem denoted_fraction (ht : IsDigits t) (hu : IsDigits u) :
    denoted (t ++ '.' :: u) = digitsValue (t ++ u) / 10 ^ u.length := by
  have hpoint : Stops (· ≠ '.') ('.' :: u) := stops_cons.2 (by simp)
  have hfilter : (t ++ '.' :: u).filter Char.isDigit = t ++ u := by
    rw [List.filter_append, List.filter_eq_self.2 ht.2, List.filter_cons_of_neg (by decide),
      List.filter_eq_self.2 hu.2]
  have hcount : ('.' :: u).countP Char.isDigit = u.length := by
    rw [List.countP_cons_of_neg (by decide), List.countP_eq_length.2 hu.2]
  rw [denoted, hfilter, dropWhile_append_of_stops ht.ne_point hpoint, hcount, digitsValue_eq]

/-- No numeral denotes a number below zero: `0 ≤ denoted t`. -/
theorem denoted_nonneg (t : Text) : 0 ≤ denoted t := by
  unfold denoted
  positivity

/-! ### Values -/

/-- The value of a numeral is the nearest number to `n.digits / 10 ^ n.places`. -/
theorem Numeral.isNearest_value (n : Numeral) : n.value.IsNearest (n.digits / 10 ^ n.places) := by
  have h := (isNearest_iff (x := n.value) n.digits (Nat.pow_pos (n := n.places) (by decide))).2 rfl
  simpa using h

/-- **Numerals carry the nearest number.** -/
theorem exists_isNearest_of_isLexeme (h : IsLexeme .number t) :
    ∃ x, Literal.ofLexeme .number t = .number x ∧ x.IsNearest (denoted t) := by
  cases h with
  | spelling heq => contradiction
  | whole hdigits =>
    refine ⟨_, Literal.ofLexeme_whole hdigits, ?_⟩
    rw [denoted_whole hdigits]
    simpa using Numeral.isNearest_value ⟨digitsValue t, 0⟩
  | fraction hdigits hplaces =>
    refine ⟨_, Literal.ofLexeme_fraction hdigits hplaces, ?_⟩
    rw [denoted_fraction hdigits hplaces]
    exact Numeral.isNearest_value ⟨_, _⟩

end LoxLex
