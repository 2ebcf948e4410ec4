import LoxLex.Binary64.Display
import LoxLex.Proofs.Binary64.Shortest

/-! # The shown form of a number

A finite number without a sign is shown as a numeral that carries it, where its value is in the
plain range (`isLexeme_display_of_plain`), and else as a numeral with a word behind it
(`exists_display_eq`). -/

namespace LoxLex.Binary64

variable {x : Binary64}

/-! ### The plain range -/

/-- The values that are shown in the plain form: zero, and from `10^(-4)` up to but not with
`10^16`. -/
def InPlainRange (x : Binary64) : Prop := x.value = 0 ∨ 1 / 10 ^ 4 ≤ x.value ∧ x.value < 10 ^ 16

/-- A number without a sign is a zero if its value is `0`. -/
theorem isZero_iff (hsign : x.isNegative = false) : x.isZero = true ↔ x.value = 0 := by
  rw [isZero, beq_iff_eq, value, div_eq_zero_iff, or_iff_left unitsOfOne_pos.ne',
    signedUnits_eq hsign]
  exact_mod_cast (strictMono_unitsOfCode.injective.eq_iff (b := 0)).symm

/-- The bounds of the plain range, in units and as values. -/
theorem plainBounds_iff (x : Binary64) :
    (unitsOfOne ≤ x.units * 10000 && x.units < 10000000000000000 * unitsOfOne) = true ↔
      1 / 10 ^ 4 ≤ |x.value| ∧ |x.value| < 10 ^ 16 := by
  have hpos := unitsOfOne_pos
  rw [Bool.and_eq_true, decide_eq_true_iff, decide_eq_true_iff, abs_value]
  -- The units of one are not to be counted out.
  generalize unitsOfOne = u at *
  rw [div_le_div_iff₀ (by norm_num) hpos, div_lt_iff₀ hpos, one_mul]
  norm_num only
  refine and_congr ?_ ?_ <;> exact_mod_cast Iff.rfl

/-- A number without a sign is shown in the plain form if it lies in the plain range. -/
theorem showsPlain_iff (hsign : x.isNegative = false) : x.showsPlain = true ↔ x.InPlainRange := by
  have hnonneg : |x.value| = x.value := by rw [abs_value, value, signedUnits_eq hsign, units_eq]
  rw [showsPlain, Bool.or_eq_true, isZero_iff hsign, plainBounds_iff, hnonneg, InPlainRange]

/-! ### The forms -/

/-- A finite number without a sign is shown by its magnitude. -/
theorem display_eq (hsign : x.isNegative = false) (hfinite : x.IsFinite) :
    x.display =
      if x.isZero then "0.0".toList
      else if x.showsPlain then x.shortest.plain
      else x.shortest.withExponent := by
  have hnan : x.isNaN = false := decide_eq_false (Nat.lt_asymm hfinite)
  have hinfinite : x.isInfinite = false := beq_eq_false_iff_ne.2 hfinite.ne
  rw [display, hnan, if_neg Bool.false_ne_true, hsign, if_neg Bool.false_ne_true, displayMagnitude,
    hinfinite, if_neg Bool.false_ne_true]

/-- The infinity is shown as `inf`. -/
theorem display_infinity : infinity.display = "inf".toList := by
  decide +kernel

/-- **The plain form reads back.** -/
theorem isLexeme_display_of_plain (hsign : x.isNegative = false) (hfinite : x.IsFinite)
    (hrange : x.InPlainRange) :
    IsLexeme .number x.display ∧ Literal.ofLexeme .number x.display = .number x := by
  rw [display_eq hsign hfinite]
  by_cases hzero : x.isZero = true
  · have hcode : x.code = 0 := beq_iff_eq.1 hzero
    rw [if_pos hzero, ← ofCode_code hsign, hcode]
    have hdigit : IsDigits ['0'] := ⟨by simp, by simp⟩
    exact ⟨.fraction hdigit hdigit, by decide +kernel⟩
  · rw [if_neg hzero, if_pos ((showsPlain_iff hsign).2 hrange)]
    have hcode : x.code ≠ 0 := fun h => hzero (beq_iff_eq.2 h)
    refine ⟨x.shortest.isLexeme_plain, ?_⟩
    -- What is read rounds from the shortest decimal, as the number itself does.
    obtain ⟨y, hliteral, hy⟩ := exists_isNearest_of_isLexeme x.shortest.isLexeme_plain
    rw [Decimal.denoted_plain] at hy
    rw [hliteral, hy.unique (isNearest_shortest hsign hfinite hcode) x.shortest.value_nonneg]

/-- The exponent form is a numeral and a word. -/
theorem exists_display_eq (hsign : x.isNegative = false) (hfinite : x.IsFinite)
    (hrange : ¬ x.InPlainRange) :
    ∃ front back, x.display = front ++ 'e' :: back ∧ IsLexeme .number front ∧
      IsLexeme .identifier ('e' :: back) := by
  have hzero : ¬ x.isZero = true := fun h => hrange (.inl ((isZero_iff hsign).1 h))
  rw [display_eq hsign hfinite, if_neg hzero, if_neg (mt (showsPlain_iff hsign).1 hrange)]
  exact x.shortest.exists_withExponent_eq

end LoxLex.Binary64
