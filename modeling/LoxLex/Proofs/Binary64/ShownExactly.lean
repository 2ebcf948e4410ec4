import LoxLex.Proofs.Binary64.Display
import LoxLex.Proofs.Binary64.Fewest
import LoxLex.Proofs.Binary64.Sign
import LoxLex.Proofs.Decimal.Forms
import LoxLex.Token.Basic

/-! # Shown numbers are exact and shortest

Behind the sign a number is shown by one of the two forms of its shortest decimal
(`isShownAs_displayMagnitude`), and either form denotes that decimal and has its digits. So what is
known of the decimal is known of the text: it rounds back to the number, nothing that does has fewer
digits, and nothing of as many digits is closer (`showsShortest`). As a text denotes one decimal,
and a decimal is rounded to one number, numbers that differ are shown differently
(`eq_of_display_eq`). -/

namespace LoxLex

namespace Binary64

variable {x y : Binary64} {q : ℚ}

/-! ### Sign and magnitude -/

/-- A text that does not begin with a hyphen has no sign to take off: `unsigned t = t`. -/
theorem unsigned_of_head?_ne {t : Text} (h : t.head? ≠ some '-') : unsigned t = t := by
  unfold unsigned
  split
  · exact absurd rfl h
  · rfl

/-- What stands behind the sign, of a number that has a nonzero code. -/
theorem displayMagnitude_cases (h : x.code ≠ 0) (hinfinite : x.isInfinite = false) :
    x.showsPlain = true ∧ x.displayMagnitude = x.shortest.plain ∨
      x.showsPlain = false ∧ x.displayMagnitude = x.shortest.withExponent := by
  have hzero : x.isZero = false := beq_eq_false_iff_ne.2 h
  rw [displayMagnitude, hinfinite, if_neg Bool.false_ne_true, hzero, if_neg Bool.false_ne_true]
  cases hshows : x.showsPlain
  · exact .inr ⟨rfl, if_neg Bool.false_ne_true⟩
  · exact .inl ⟨rfl, if_pos rfl⟩

/-- **The shortest decimal is shown.** -/
theorem isShownAs_displayMagnitude (h : x.code ≠ 0) (hinfinite : x.isInfinite = false) :
    x.shortest.IsShownAs x.displayMagnitude := by
  have htrimmed := coefficient_shortest_mod_ten h
  rcases displayMagnitude_cases h hinfinite with ⟨-, heq⟩ | ⟨-, heq⟩ <;> rw [heq]
  · exact Decimal.isShownAs_plain htrimmed
  · exact Decimal.isShownAs_withExponent htrimmed

/-- The magnitude of an infinity is shown as `inf`. -/
theorem displayMagnitude_of_isInfinite (hinfinite : x.isInfinite = true) :
    x.displayMagnitude = "inf".toList := by
  rw [displayMagnitude, if_pos hinfinite]

/-- The magnitude of a zero is shown as `0.0`. -/
theorem displayMagnitude_of_code_eq_zero (h : x.code = 0) : x.displayMagnitude = "0.0".toList := by
  have hinfinite : x.isInfinite = false := by
    rw [isInfinite, h]
    decide
  have hzero : x.isZero = true := beq_iff_eq.2 h
  rw [displayMagnitude, hinfinite, if_neg Bool.false_ne_true, if_pos hzero]

/-- Only what is not infinite begins with a digit. -/
theorem head?_displayMagnitude (x : Binary64) :
    x.displayMagnitude.head?.any Char.isDigit = !x.isInfinite := by
  cases hinfinite : x.isInfinite with
  | true =>
    rw [displayMagnitude_of_isInfinite hinfinite]
    decide
  | false =>
    by_cases hcode : x.code = 0
    · rw [displayMagnitude_of_code_eq_zero hcode]
      decide
    · exact (isShownAs_displayMagnitude hcode hinfinite).head

/-- No magnitude is shown with a hyphen in front. -/
theorem head?_displayMagnitude_ne (x : Binary64) : x.displayMagnitude.head? ≠ some '-' := by
  intro hhead
  have hdigit := x.head?_displayMagnitude
  rw [hhead] at hdigit
  cases hinfinite : x.isInfinite with
  | true =>
    rw [displayMagnitude_of_isInfinite hinfinite] at hhead
    contradiction
  | false =>
    rw [hinfinite] at hdigit
    contradiction

/-- **What is shown** of a number that is no NaN: its sign and its magnitude. -/
structure IsSigned (x : Binary64) (t : Text) : Prop where
  sign : t.head? = some '-' ↔ x.isNegative = true
  unsigned : unsigned t = x.displayMagnitude
  denoted : shownDenoted t =
    if x.isNegative then -magnitudeDenoted x.displayMagnitude
    else magnitudeDenoted x.displayMagnitude
  significant : significant t = significant x.displayMagnitude

/-- A number that is no NaN is shown by its sign and its magnitude. -/
theorem isSigned_display (hnan : x.isNaN = false) : x.IsSigned x.display := by
  have hhead := x.head?_displayMagnitude_ne
  have hunsigned := unsigned_of_head?_ne hhead
  rw [display, hnan, if_neg Bool.false_ne_true]
  cases hsign : x.isNegative
  · rw [if_neg Bool.false_ne_true]
    refine ⟨by simpa [hsign] using hhead, hunsigned, ?_, rfl⟩
    rw [shownDenoted, if_neg hhead, hsign, if_neg Bool.false_ne_true, hunsigned]
  · rw [if_pos rfl]
    refine ⟨by simp [hsign], rfl, ?_, by simp [significant]⟩
    rw [shownDenoted, List.head?_cons, if_pos rfl, hsign, if_pos rfl, unsigned]

/-! ### Numbers that are shown alike -/

/-- The text `0.0` denotes `0`. -/
theorem magnitudeDenoted_zero : magnitudeDenoted "0.0".toList = 0 := by
  have hdigit : IsDigits ['0'] := ⟨by simp, by simp⟩
  have hfront : "0.0".toList.takeWhile (· ≠ 'e') = ['0'] ++ '.' :: ['0'] := by decide
  rw [magnitudeDenoted, hfront, denoted_fraction hdigit hdigit, digitsValue_eq]
  simp [Nat.ofDigitChars]

/-- What is shown of a magnitude rounds to it. -/
theorem roundsTo_displayMagnitude (hinfinite : x.isInfinite = false) :
    RoundsTo (magnitudeDenoted x.displayMagnitude * unitsOfOne) x.code := by
  by_cases hcode : x.code = 0
  · have hzero : RoundsTo (unitsOfCode 0) 0 := roundsTo_unitsOfCode 0
    rw [unitsOfCode_zero, Nat.cast_zero] at hzero
    rwa [displayMagnitude_of_code_eq_zero hcode, magnitudeDenoted_zero, zero_mul, hcode]
  · rw [(isShownAs_displayMagnitude hcode hinfinite).denoted]
    exact roundsTo_shortest hcode

/-- A magnitude is shown in one way only. -/
theorem code_eq_of_displayMagnitude_eq (h : x.displayMagnitude = y.displayMagnitude) :
    x.code = y.code := by
  have hinfinite : x.isInfinite = y.isInfinite := by
    rw [← Bool.not_inj_iff, ← head?_displayMagnitude, ← head?_displayMagnitude, h]
  cases hx : x.isInfinite with
  | true =>
    have hy := hinfinite ▸ hx
    exact (beq_iff_eq.1 hx).trans (beq_iff_eq.1 hy).symm
  | false =>
    have hround := roundsTo_displayMagnitude hx
    rw [h] at hround
    exact hround.unique (roundsTo_displayMagnitude (hinfinite ▸ hx))

/-- **Numbers are told apart** by what is shown of them. -/
theorem eq_of_display_eq (hx : x.isNaN = false) (hy : y.isNaN = false)
    (h : x.display = y.display) : x = y := by
  have hshownx := isSigned_display hx
  have hshowny := isSigned_display hy
  rw [h] at hshownx
  have hsign : x.isNegative = y.isNegative :=
    Bool.eq_iff_iff.2 (hshownx.sign.symm.trans hshowny.sign)
  exact eq_of_isNegative_eq hsign
    (code_eq_of_displayMagnitude_eq (hshownx.unsigned.symm.trans hshowny.unsigned))

/-! ### The shortest decimal, with the sign -/

/-- The value of a number is its magnitude, on the side of its sign. -/
theorem value_eq (x : Binary64) : x.value = if x.isNegative then -|x.value| else |x.value| := by
  rw [abs_value, value, signedUnits]
  split <;> ring

/-- A number and what rounds to it are on one side of zero. -/
theorem abs_sub_value (h : x.isNegative = decide (q < 0)) : |q - x.value| = x.distance |q| := by
  rw [x.value_eq, distance]
  cases hsign : x.isNegative <;> rw [hsign] at h
  · rw [if_neg Bool.false_ne_true, abs_of_nonneg (not_lt.1 (of_decide_eq_false h.symm))]
  · rw [if_pos rfl, abs_of_neg (of_decide_eq_true h.symm), ← abs_neg]
    congr 1
    ring

/-- **The shortest text.** A text shows a number by a decimal that rounds to it: no other has fewer
significant digits, none of as many is closer, and the form is told by the value. -/
structure ShowsShortest (x : Binary64) (t : Text) : Prop where
  sign : t.head? = some '-' ↔ x.isNegative = true
  rounds : x.IsRounded (shownDenoted t)
  digits : HasDigits (significant t).length (shownDenoted t)
  fewest : ∀ q n, x.IsRounded q → HasDigits n q → (significant t).length ≤ n
  nearest : ∀ q, x.IsRounded q → HasDigits (significant t).length q →
    |shownDenoted t - x.value| ≤ |q - x.value|
  plain : IsPlainForm (unsigned t) ↔ 1 / 10 ^ 4 ≤ |x.value| ∧ |x.value| < 10 ^ 16
  exponent : IsExponentForm (unsigned t) ↔ ¬ (1 / 10 ^ 4 ≤ |x.value| ∧ |x.value| < 10 ^ 16)

/-- What is shown behind the sign, of a finite number other than zero, is in one of the forms. -/
theorem isPlainForm_displayMagnitude_iff (h : x.code ≠ 0) (hinfinite : x.isInfinite = false) :
    (IsPlainForm x.displayMagnitude ↔ x.showsPlain = true) ∧
      (IsExponentForm x.displayMagnitude ↔ ¬ x.showsPlain = true) := by
  have htrimmed := coefficient_shortest_mod_ten h
  have hplain := Decimal.isPlainForm_plain htrimmed
  have hexponent := Decimal.isExponentForm_withExponent htrimmed
  rcases displayMagnitude_cases h hinfinite with ⟨hshows, heq⟩ | ⟨hshows, heq⟩ <;> rw [heq, hshows]
  · exact ⟨iff_of_true hplain rfl, iff_of_false hplain.not_isExponentForm (by simp)⟩
  · exact ⟨iff_of_false (fun h => h.not_isExponentForm hexponent) Bool.false_ne_true,
      iff_of_true hexponent Bool.false_ne_true⟩

/-- What is shown of a number denotes its shortest decimal, on the side of its sign. -/
theorem shownDenoted_display (hfinite : x.IsFinite) (h : x.code ≠ 0) :
    |shownDenoted x.display| = x.shortest.value ∧
      x.isNegative = decide (shownDenoted x.display < 0) := by
  have hnan : x.isNaN = false := decide_eq_false (Nat.lt_asymm hfinite)
  have hinfinite : x.isInfinite = false := beq_eq_false_iff_ne.2 hfinite.ne
  have hpos : 0 < x.shortest.value :=
    lt_of_le_of_ne x.shortest.value_nonneg (RoundsTo.ne_zero h (roundsTo_shortest h)).symm
  rw [(isSigned_display hnan).denoted, (isShownAs_displayMagnitude h hinfinite).denoted]
  cases x.isNegative
  · rw [if_neg Bool.false_ne_true, abs_of_pos hpos, decide_eq_false hpos.not_gt]
    exact ⟨rfl, rfl⟩
  · rw [if_pos rfl, abs_neg, abs_of_pos hpos, decide_eq_true (neg_neg_of_pos hpos)]
    exact ⟨rfl, rfl⟩

/-- A finite number other than zero is shown by its shortest decimal:
`x.ShowsShortest x.display`. -/
theorem showsShortest (hfinite : x.IsFinite) (h : x.code ≠ 0) : x.ShowsShortest x.display := by
  have hnan : x.isNaN = false := decide_eq_false (Nat.lt_asymm hfinite)
  have hinfinite : x.isInfinite = false := beq_eq_false_iff_ne.2 hfinite.ne
  have hzero : x.isZero = false := beq_eq_false_iff_ne.2 h
  have hsigned := isSigned_display hnan
  have hsignificant : significant x.display = x.shortest.digits :=
    hsigned.significant.trans (isShownAs_displayMagnitude h hinfinite).significant
  obtain ⟨hmagnitude, hside⟩ := shownDenoted_display hfinite h
  obtain ⟨hplain, hexponent⟩ := isPlainForm_displayMagnitude_iff h hinfinite
  have hrange : x.showsPlain = true ↔ 1 / 10 ^ 4 ≤ |x.value| ∧ |x.value| < 10 ^ 16 := by
    rw [showsPlain, hzero, Bool.false_or, plainBounds_iff]
  constructor
  case sign => exact hsigned.sign
  case rounds =>
    rw [isRounded_iff hfinite, hmagnitude]
    exact ⟨hside, roundsTo_shortest h⟩
  case digits =>
    rw [← hasDigits_abs_iff, hmagnitude, hsignificant,
      Decimal.hasDigits_value_iff (coefficient_shortest_mod_ten h)]
  case fewest =>
    intro q n hq hdigits
    rw [hsignificant]
    exact length_digits_shortest_le h (abs_nonneg q) ((isRounded_iff hfinite).1 hq).2
      (hasDigits_abs_iff.2 hdigits)
  case nearest =>
    intro q hq hdigits
    -- All three are on one side of zero, so the distances are those of the magnitudes.
    obtain ⟨hsign, hq⟩ := (isRounded_iff hfinite).1 hq
    rw [hsignificant] at hdigits
    rw [abs_sub_value hside, abs_sub_value hsign, hmagnitude]
    exact distance_shortest_le h (abs_nonneg q) hq (hasDigits_abs_iff.2 hdigits)
  case plain => rw [hsigned.unsigned, hplain, hrange]
  case exponent => rw [hsigned.unsigned, hexponent, hrange]

end Binary64

open Binary64

/-- **Shown numbers.** What is shown of a finite number other than zero is the shortest decimal that
rounds to it, in the plain form from `10^(-4)` up to `10^16` and in the exponent form elsewhere; and
numbers are shown alike only if their bits are the same. -/
theorem showsShortest_display :
    (∀ x : Binary64, x.IsFinite → x.isZero = false →
      x.ShowsShortest (Literal.number x).display) ∧
    ∀ x y : Binary64, x.isNaN = false → y.isNaN = false →
      ((Literal.number x).display = (Literal.number y).display ↔ x = y) := by
  refine ⟨fun x hfinite hzero => ?_, fun x y hx hy => ⟨fun h => ?_, fun h => ?_⟩⟩
  · exact showsShortest hfinite (beq_eq_false_iff_ne.1 hzero)
  · exact eq_of_display_eq hx hy h
  · rw [h]

/-- The least number is shown by one digit, though it has 751; the zeros are told apart. -/
theorem showsShortest_display_least :
    let least : Binary64 := ⟨0x8000000000000001⟩
    least.ShowsShortest "-5e-324".toList ∧
      ((Literal.number ⟨0⟩).display = (Literal.number ⟨0x8000000000000000⟩).display ↔
        (⟨0⟩ : Binary64) = ⟨0x8000000000000000⟩) := by
  intro least
  have hshown : (Literal.number least).display = "-5e-324".toList := by decide +kernel
  exact ⟨hshown ▸ showsShortest_display.1 least (by decide) (by decide),
    showsShortest_display.2 _ _ (by decide) (by decide)⟩

end LoxLex
