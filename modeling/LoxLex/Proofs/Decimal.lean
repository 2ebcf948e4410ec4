import LoxLex.Decimal
import LoxLex.Proofs.Numeral

/-! # Written decimals

The plain form of a decimal is a numeral that denotes it (`isLexeme_plain`, `denoted_plain`). The
exponent form is none, as numerals know no exponents: it is a numeral with a word behind it, which
begins with the mark of the exponent and takes in its sign (`exists_withExponent_eq`). -/

namespace LoxLex

/-! ### Digits of whole numbers -/

/-- A natural number is written in decimal digits, at least one. -/
theorem isDigits_decimalText (n : Nat) : IsDigits (decimalText n) :=
  ⟨Nat.toDigits_ne_nil, fun _ hc => Nat.isDigit_of_mem_toDigits (by decide) (by decide) hc⟩

namespace Decimal

variable {d : Decimal}

/-- The rational number that a decimal is. -/
def value (d : Decimal) : ℚ := d.coefficient * 10 ^ d.exponent

/-- A decimal has no sign: `0 ≤ d.value`. -/
theorem value_nonneg (d : Decimal) : 0 ≤ d.value :=
  mul_nonneg (Nat.cast_nonneg _) (zpow_nonneg (by norm_num) _)

/-- Without the zeros at its end a decimal is the same number: `d.trimmed.value = d.value`. -/
theorem value_trimmed (d : Decimal) : d.trimmed.value = d.value := by
  induction d using trimmed.induct with
  | case1 d h => rw [trimmed, if_pos h]
  | case2 d h ih =>
    rw [trimmed, if_neg h, ih]
    have hcoefficient : d.coefficient = 10 * (d.coefficient / 10) := by omega
    have hcast : (d.coefficient : ℚ) = 10 * (d.coefficient / 10 : Nat) := by
      exact_mod_cast hcoefficient
    rw [value, value, hcast, zpow_add_one₀ (by norm_num)]
    ring

/-- A negative exponent divides. -/
theorem value_eq_div {k : Nat} (h : d.exponent = -k) : d.value = d.coefficient / 10 ^ k := by
  rw [value, h, zpow_neg, zpow_natCast, div_eq_mul_inv]

/-- The digits of a decimal are digits, at least one. -/
theorem isDigits_digits (d : Decimal) : IsDigits d.digits := isDigits_decimalText d.coefficient

/-- The digits of a decimal write its coefficient. -/
theorem ofDigitChars_digits (d : Decimal) : Nat.ofDigitChars 10 d.digits 0 = d.coefficient :=
  Nat.ofDigitChars_ten_toDigits

/-! ### The plain form -/

/-- Zeros are digits, however many there are. -/
theorem isDigit_of_mem_replicate {k : Nat} : ∀ c ∈ List.replicate k '0', c.isDigit = true := by
  intro c hc
  rw [List.eq_of_mem_replicate hc]
  rfl

/-- The digits on either side of the point of the plain form. -/
structure IsPlain (d : Decimal) (front back : Text) : Prop where
  text : d.plain = front ++ '.' :: back
  front_isDigits : IsDigits front
  back_isDigits : IsDigits back
  value : d.value = digitsValue (front ++ back) / 10 ^ back.length

/-- The plain form with the point behind all digits: zeros fill up to the point, and one stands
behind it. -/
theorem isPlain_of_nonneg (h : 0 ≤ d.exponent) :
    d.IsPlain (d.digits ++ List.replicate d.exponent.toNat '0') ['0'] where
  text := by rw [plain, if_pos h]
  front_isDigits := d.isDigits_digits.append isDigit_of_mem_replicate
  back_isDigits := ⟨by simp, by simp⟩
  value := by
    have hzero : ['0'] = List.replicate 1 '0' := rfl
    have hexponent : d.exponent = (d.exponent.toNat : Int) := (Int.toNat_of_nonneg h).symm
    rw [digitsValue_eq, Nat.ofDigitChars_append, Nat.ofDigitChars_append, ofDigitChars_digits,
      hzero, Nat.ofDigitChars_replicate_zero, Nat.ofDigitChars_replicate_zero, value, hexponent,
      zpow_natCast, List.length_replicate, Int.toNat_natCast]
    push_cast
    ring

/-- The plain form with the point among the digits. -/
theorem isPlain_of_point_pos (h : d.exponent < 0) (hpoint : 0 < d.point) :
    d.IsPlain (d.digits.take d.point.toNat) (d.digits.drop d.point.toNat) where
  text := by rw [plain, if_neg h.not_ge, if_pos hpoint]
  front_isDigits := by
    refine ⟨?_, fun c hc => d.isDigits_digits.2 c (List.mem_of_mem_take hc)⟩
    rw [Ne, List.take_eq_nil_iff]
    have hne := d.isDigits_digits.1
    rintro (hzero | hnil)
    · omega
    · exact hne hnil
  back_isDigits := by
    refine ⟨?_, fun c hc => d.isDigits_digits.2 c (List.mem_of_mem_drop hc)⟩
    rw [Ne, List.drop_eq_nil_iff]
    rw [point] at *
    omega
  value := by
    have hexponent : d.exponent = -((d.digits.drop d.point.toNat).length : Nat) := by
      rw [List.length_drop]
      rw [point] at *
      omega
    rw [List.take_append_drop, digitsValue_eq, ofDigitChars_digits, value_eq_div hexponent]

/-- The plain form with the point in front of all digits: a zero stands in front of the point, and
zeros fill up to the digits. -/
theorem isPlain_of_point_nonpos (h : d.exponent < 0) (hpoint : ¬ 0 < d.point) :
    d.IsPlain ['0'] (List.replicate (-d.point).toNat '0' ++ d.digits) where
  text := by
    rw [plain, if_neg h.not_ge, if_neg hpoint]
    rfl
  front_isDigits := ⟨by simp, by simp⟩
  back_isDigits := by
    refine ⟨List.append_ne_nil_of_right_ne_nil _ d.isDigits_digits.1, ?_⟩
    exact List.forall_mem_append.2 ⟨isDigit_of_mem_replicate, d.isDigits_digits.2⟩
  value := by
    have hexponent : d.exponent =
        -((List.replicate (-d.point).toNat '0' ++ d.digits).length : Nat) := by
      rw [List.length_append, List.length_replicate]
      rw [point] at *
      omega
    rw [← List.append_assoc, digitsValue_eq, Nat.ofDigitChars_append, Nat.ofDigitChars_append]
    have hzero : ['0'] = List.replicate 1 '0' := rfl
    rw [hzero, Nat.ofDigitChars_replicate_zero, Nat.ofDigitChars_replicate_zero, Nat.mul_zero,
      ofDigitChars_digits, value_eq_div hexponent]

/-- **The plain form** has digits on either side of a point, and they write the decimal. -/
theorem exists_isPlain (d : Decimal) : ∃ front back, d.IsPlain front back := by
  rcases le_or_gt 0 d.exponent with hwhole | hfraction
  · exact ⟨_, _, isPlain_of_nonneg hwhole⟩
  · by_cases hpoint : 0 < d.point
    · exact ⟨_, _, isPlain_of_point_pos hfraction hpoint⟩
    · exact ⟨_, _, isPlain_of_point_nonpos hfraction hpoint⟩

/-- The plain form is written as a number token is: `IsLexeme .number d.plain`. -/
theorem isLexeme_plain (d : Decimal) : IsLexeme .number d.plain := by
  obtain ⟨front, back, h⟩ := d.exists_isPlain
  rw [h.text]
  exact .fraction h.front_isDigits h.back_isDigits

/-- What the plain form denotes is the decimal. -/
theorem denoted_plain (d : Decimal) : denoted d.plain = d.value := by
  obtain ⟨front, back, h⟩ := d.exists_isPlain
  rw [h.text, denoted_fraction h.front_isDigits h.back_isDigits, h.value]

/-! ### The exponent form -/

/-- A whole number is written in digits and hyphens. -/
theorem mem_wholeText {n : Int} : ∀ c ∈ wholeText n, c.isDigit ∨ c = '-' := by
  have hdigits : ∀ c ∈ decimalText n.natAbs, c.isDigit ∨ c = '-' := by
    intro c hc
    exact .inl ((isDigits_decimalText _).2 c hc)
  unfold wholeText
  split
  · exact List.forall_mem_cons.2 ⟨.inr rfl, hdigits⟩
  · exact hdigits

/-- Reserved words go on with a letter, so none has a digit or a hyphen behind its first. -/
theorem ofText?_eq_none {c : Char} {t : Text} (h : ∀ d ∈ t, d.isDigit ∨ d = '-') :
    Keyword.ofText? (c :: t) = none := by
  have hletters : ∀ w ∈ Keyword.all, w.spelling.tail.head?.any Char.isAlpha = true := by decide
  refine List.find?_eq_none.2 fun w hw hspelling => ?_
  have hsecond := hletters w hw
  rw [beq_iff_eq.1 hspelling, List.tail_cons] at hsecond
  obtain ⟨d, hd, hletter⟩ := (Option.any_eq_true ..).1 hsecond
  rcases h d (List.mem_of_head? hd) with hdigit | rfl
  · rw [Piece.isDigit_eq_false_of_isAlpha hletter] at hdigit
    contradiction
  · contradiction

/-- **The exponent form** is a numeral and a word that begins with the mark of the exponent. -/
theorem exists_withExponent_eq (d : Decimal) :
    ∃ front back, d.withExponent = front ++ 'e' :: back ∧ IsLexeme .number front ∧
      IsLexeme .identifier ('e' :: back) := by
  have hword : IsLexeme .identifier ('e' :: wholeText (d.point - 1)) :=
    .identifier rfl (fun c hc => .inr (mem_wholeText c hc)) (ofText?_eq_none mem_wholeText)
  have hdigits := d.isDigits_digits
  unfold withExponent
  obtain ⟨c, fraction, heq⟩ := List.exists_cons_of_ne_nil hdigits.1
  rw [heq] at hdigits ⊢
  have hfirst : IsDigits [c] := ⟨by simp, by simpa using hdigits.2 c (List.mem_cons_self ..)⟩
  by_cases hnil : fraction = []
  · exact ⟨[c], _, by simp [hnil], .whole hfirst, hword⟩
  · have hplaces : IsDigits fraction := ⟨hnil, fun b hb => hdigits.2 b (List.mem_cons_of_mem c hb)⟩
    exact ⟨[c] ++ '.' :: fraction, _, by simp [hnil], .fraction hfirst hplaces, hword⟩

end Decimal

end LoxLex
