import LoxLex.Proofs.Binary64.Rounding

/-! # The nearest number

`IsNearest x q` says of a number what the standard asks of the rounding of a rational number `q`,
not below zero, to nearest with ties to even: from the threshold of overflow on it is the infinity,
and below it is finite, with no finite number of either sign closer to `q`, and even if another
value is as close. That is the number of the code that `q` rounds to by midpoints, and no other
(`isNearest_iff_of_roundsTo`); so `nearest` gives it (`isNearest_iff`). -/

namespace LoxLex.Binary64

/-! ### Values -/

/-- A finite number in units, with its sign. -/
def signedUnits (x : Binary64) : ℚ := if x.isNegative then -(x.units : ℚ) else x.units

/-- The value of a finite number. -/
def value (x : Binary64) : ℚ := x.signedUnits / unitsOfOne

/-- Halfway between the greatest finite number and the power of two behind it. -/
def overflow : ℚ := 2 ^ 1024 - 2 ^ 970

/-- `x` is one of the finite numbers closest to `q`, and even if another value is as close. -/
structure IsClosest (x : Binary64) (q : ℚ) : Prop where
  closest : ∀ y : Binary64, y.IsFinite → |x.value - q| ≤ |y.value - q|
  even : ∀ y : Binary64, y.IsFinite → |y.value - q| = |x.value - q| → y.value ≠ x.value →
    x.significand % 2 = 0

/-- **The nearest number.** `x` is what a rational number `q`, not below zero, is rounded to. -/
structure IsNearest (x : Binary64) (q : ℚ) : Prop where
  sign : x.isNegative = false
  infinite : overflow ≤ q → x = infinity
  finite : q < overflow → x.IsFinite ∧ x.IsClosest q

variable {x y : Binary64} {q r : ℚ} {m n : Nat}

/-- One is `2 ^ 1074` units. -/
theorem cast_unitsOfOne : (unitsOfOne : ℚ) = 2 ^ 1074 := by
  unfold unitsOfOne
  -- The power is not to be evaluated.
  generalize 1074 = k
  exact Nat.cast_pow 2 k

/-- `0 < unitsOfOne`, as rational numbers. -/
theorem unitsOfOne_pos : (0 : ℚ) < unitsOfOne := by
  rw [cast_unitsOfOne]
  positivity

/-- The magnitude of a number in units: `|x.value| = x.units / unitsOfOne`. -/
theorem abs_value (x : Binary64) : |x.value| = x.units / unitsOfOne := by
  rw [value, signedUnits, abs_div, abs_of_pos unitsOfOne_pos]
  split
  · rw [abs_neg, Nat.abs_cast]
  · rw [Nat.abs_cast]

/-- How far a number is from `q`, in units: `|x.signedUnits - q * unitsOfOne| / unitsOfOne`. -/
theorem abs_value_sub (x : Binary64) (q : ℚ) :
    |x.value - q| = |x.signedUnits - q * unitsOfOne| / unitsOfOne := by
  have hsub : x.value - q = (x.signedUnits - q * unitsOfOne) / unitsOfOne := by
    rw [value, sub_div, mul_div_cancel_right₀ q unitsOfOne_pos.ne']
  rw [hsub, abs_div, abs_of_pos unitsOfOne_pos]

/-- A number without a sign has the units of its code: `x.signedUnits = unitsOfCode x.code`. -/
theorem signedUnits_eq (h : x.isNegative = false) : x.signedUnits = unitsOfCode x.code := by
  rw [signedUnits, h, if_neg Bool.false_ne_true, units_eq]

/-- The number of the code `n` has the units of `n`: `(ofCode n).signedUnits = unitsOfCode n`. -/
theorem signedUnits_ofCode (h : n ≤ infinityCode) : (ofCode n).signedUnits = unitsOfCode n := by
  rw [signedUnits_eq (isNegative_ofCode h), code_ofCode h]

/-- The number of a code below that of the infinity is finite. -/
theorem isFinite_ofCode (h : n < infinityCode) : (ofCode n).IsFinite := by
  rw [IsFinite, code_ofCode h.le]
  exact h

/-- Numbers alternate between even and odd as their codes do. -/
theorem significand_mod_two (x : Binary64) : x.significand % 2 = x.code % 2 := by
  rw [significand, leadingPlace]
  split <;> omega

/-! ### Overflow -/

/-- The threshold of overflow is the midpoint in front of the code of the infinity. -/
theorem overflow_mul_unitsOfOne : overflow * unitsOfOne = midpoint (infinityCode - 1) := by
  have hcode : infinityCode - 1 = 2045 * leadingPlace + (2 * leadingPlace - 1) := rfl
  have hlast : 2 * leadingPlace - 1 < 2 * leadingPlace ∧ leadingPlace ≤ 2 * leadingPlace - 1 := by
    decide
  have hsignificand : ((2 * leadingPlace - 1 : Nat) : ℚ) + 1 / 2 = (2 ^ 54 - 1) / 2 := by
    rw [leadingPlace]
    norm_num
  have hupper : (2 : ℚ) ^ 1024 = 2 ^ 54 * 2 ^ 970 := by
    rw [show 1024 = 54 + 970 from rfl, pow_add]
  have hscale : (2 : ℚ) ^ 2045 = 2 * (2 ^ 970 * 2 ^ 1074) := by
    rw [show 2045 = 1 + (970 + 1074) from rfl, pow_add, pow_add, pow_one]
  rw [hcode, midpoint_shift hlast.1 (.inr hlast.2), hsignificand, overflow, cast_unitsOfOne,
    hupper, hscale]
  generalize (2 : ℚ) ^ 970 = u, (2 : ℚ) ^ 1074 = v
  ring

/-- What is rounded to the infinity or beyond. -/
theorem RoundsTo.infinityCode_le_iff (h : RoundsTo r n) :
    infinityCode ≤ n ↔ midpoint (infinityCode - 1) ≤ r := by
  constructor
  · intro hle
    exact h.midpoint_le (by rw [infinityCode] at *; omega)
  · intro hle
    by_contra hlt
    -- The magnitude is the midpoint, and the last finite code is odd.
    have hcode : n ≤ infinityCode - 1 := by omega
    have hmid : r = midpoint n :=
      le_antisymm h.upper ((strictMono_midpoint.monotone hcode).trans hle)
    have hlast : n = infinityCode - 1 :=
      le_antisymm hcode (strictMono_midpoint.le_iff_le.1 (hle.trans hmid.le))
    have heven := h.upper_even hmid
    rw [hlast] at heven
    contradiction

/-! ### The nearest number -/

/-- No number is closer than the one of the code that is rounded to, be it below zero. -/
theorem RoundsTo.signedUnits_cases (h : RoundsTo r n) (hr : 0 ≤ r) (y : Binary64) :
    |unitsOfCode n - r| < |y.signedUnits - r| ∨
      |unitsOfCode n - r| = |y.signedUnits - r| ∧ (y.signedUnits = unitsOfCode n ∨ n % 2 = 0) := by
  by_cases hneg : y.isNegative = true ∧ y.code ≠ 0
  · -- Below zero: even zero is closer.
    obtain ⟨hneg, hne⟩ := hneg
    have hpos : (0 : ℚ) < unitsOfCode y.code := by
      exact_mod_cast strictMono_unitsOfCode (Nat.pos_of_ne_zero hne)
    have hzero : |unitsOfCode n - r| ≤ r := by
      rcases Nat.eq_zero_or_pos n with rfl | hn
      · simp [abs_of_nonneg hr]
      · have hcases := h.abs_sub_lt_or hn.ne
        rw [unitsOfCode_zero, Nat.cast_zero, zero_sub, abs_neg, abs_of_nonneg hr] at hcases
        rcases hcases with hlt | ⟨heq, -⟩
        · exact hlt.le
        · exact heq.le
    have hfar : |y.signedUnits - r| = unitsOfCode y.code + r := by
      rw [signedUnits, if_pos hneg, units_eq, ← abs_neg, abs_of_pos (by linarith)]
      ring
    exact .inl (by linarith)
  · have hsigned : y.signedUnits = unitsOfCode y.code := by
      rw [signedUnits, units_eq]
      split
      next hsign =>
        have hcode : y.code = 0 := by
          by_contra hne
          exact hneg ⟨hsign, hne⟩
        simp [hcode]
      next => rfl
    rw [hsigned]
    rcases eq_or_ne y.code n with rfl | hne
    · exact .inr ⟨rfl, .inl rfl⟩
    · exact (h.abs_sub_lt_or hne).imp_right fun ⟨heq, heven, _⟩ => ⟨heq, .inr heven⟩

/-- The number of the code that is rounded to, if it is finite, is closest. -/
theorem RoundsTo.isClosest (h : RoundsTo (q * unitsOfOne) n) (hq : 0 ≤ q)
    (hn : n < infinityCode) : (ofCode n).IsClosest q := by
  have hr : 0 ≤ q * unitsOfOne := mul_nonneg hq unitsOfOne_pos.le
  have hunits := signedUnits_ofCode hn.le
  constructor
  · intro y _
    rw [abs_value_sub, abs_value_sub y, div_le_div_iff_of_pos_right unitsOfOne_pos, hunits]
    rcases h.signedUnits_cases hr y with hlt | ⟨heq, -⟩
    · exact hlt.le
    · exact heq.le
  · intro y _ htie hne
    rw [abs_value_sub, abs_value_sub (ofCode n), div_left_inj' unitsOfOne_pos.ne', hunits] at htie
    rcases h.signedUnits_cases hr y with hlt | ⟨-, hsame | heven⟩
    · exact absurd htie hlt.ne'
    · exact absurd (by rw [value, value, hsame, hunits]) hne
    · rw [significand_mod_two, code_ofCode hn.le, heven]

/-- A closest number without a sign is that of the code that is rounded to. -/
theorem RoundsTo.code_of_isClosest (h : RoundsTo (q * unitsOfOne) n) (hn : n < infinityCode)
    (hsign : x.isNegative = false) (hx : x.IsClosest q) : x.code = n := by
  have hunits := signedUnits_ofCode hn.le
  have hfinite := isFinite_ofCode hn
  by_contra hne
  rcases h.abs_sub_lt_or hne with hlt | ⟨htie, -, hodd⟩
  · have hle := hx.closest (ofCode n) hfinite
    rw [abs_value_sub, abs_value_sub (ofCode n), div_le_div_iff_of_pos_right unitsOfOne_pos,
      signedUnits_eq hsign, hunits] at hle
    exact absurd hlt hle.not_gt
  · -- Of two numbers as close the one that is rounded to is even.
    have htie' : |(ofCode n).value - q| = |x.value - q| := by
      rw [abs_value_sub, abs_value_sub x, signedUnits_eq hsign, hunits, htie]
    have hvalue : (ofCode n).value ≠ x.value := by
      rw [value, value, signedUnits_eq hsign, hunits, Ne, div_left_inj' unitsOfOne_pos.ne']
      exact_mod_cast strictMono_unitsOfCode.injective.ne (Ne.symm hne)
    have heven := hx.even (ofCode n) hfinite htie' hvalue
    rw [significand_mod_two, hodd] at heven
    contradiction

/-- What is below the threshold is rounded to the code of a finite number. -/
theorem RoundsTo.lt_infinityCode_iff (h : RoundsTo (q * unitsOfOne) n) :
    n < infinityCode ↔ q < overflow := by
  rw [← not_le, h.infinityCode_le_iff, ← overflow_mul_unitsOfOne,
    mul_le_mul_iff_left₀ unitsOfOne_pos, not_le]

/-- **Codes and values.** The number of the code that is rounded to is the nearest, and no other
number is. -/
theorem isNearest_iff_of_roundsTo (hq : 0 ≤ q) (h : RoundsTo (q * unitsOfOne) n) :
    IsNearest x q ↔ x = ofCode (min n infinityCode) := by
  rcases lt_or_ge n infinityCode with hn | hn
  · have hbelow : q < overflow := h.lt_infinityCode_iff.1 hn
    rw [Nat.min_eq_left hn.le]
    constructor
    · intro hx
      rw [← h.code_of_isClosest hn hx.sign (hx.finite hbelow).2, ofCode_code hx.sign]
    · rintro rfl
      exact ⟨isNegative_ofCode hn.le, fun hover => absurd hbelow hover.not_gt,
        fun _ => ⟨isFinite_ofCode hn, h.isClosest hq hn⟩⟩
  · have hover : overflow ≤ q := not_lt.1 (mt h.lt_infinityCode_iff.2 hn.not_gt)
    rw [Nat.min_eq_right hn]
    constructor
    · intro hx
      exact hx.infinite hover
    · rintro rfl
      exact ⟨isNegative_ofCode le_rfl, fun _ => rfl, fun hbelow => absurd hover hbelow.not_ge⟩

/-- Every rational number that is not below zero is rounded to some code. -/
theorem exists_roundsTo (hq : 0 ≤ q) : ∃ n, RoundsTo (q * unitsOfOne) n := by
  have hquotient : (q.num.toNat / q.den : ℚ) = q := by
    have hnum : ((q.num.toNat : Nat) : ℚ) = q.num := by
      exact_mod_cast Int.toNat_of_nonneg (Rat.num_nonneg.2 hq)
    rw [hnum, Rat.num_div_den]
  exact ⟨_, hquotient ▸ roundsTo_nearestCode q.num.toNat q.den_pos⟩

/-- **What is nearest** to a quotient is what `nearest` gives, and nothing else. -/
theorem isNearest_iff (num : Nat) {den : Nat} (hden : 0 < den) :
    IsNearest x (num / den) ↔ x = nearest num den := by
  rw [nearest_eq]
  exact isNearest_iff_of_roundsTo (by positivity) (roundsTo_nearestCode num hden)

/-! ### Consequences -/

/-- One number is nearest. -/
theorem IsNearest.unique (hx : x.IsNearest q) (hy : y.IsNearest q) (hq : 0 ≤ q) : x = y := by
  obtain ⟨n, hn⟩ := exists_roundsTo hq
  rw [(isNearest_iff_of_roundsTo hq hn).1 hx, (isNearest_iff_of_roundsTo hq hn).1 hy]

/-- A nearest number has a code up to that of the infinity: `x.code ≤ infinityCode`. -/
theorem IsNearest.code_le (h : x.IsNearest q) : x.code ≤ infinityCode := by
  rcases le_or_gt overflow q with hover | hbelow
  · rw [h.infinite hover, infinity, code_ofCode le_rfl]
  · exact (h.finite hbelow).1.le

/-- A nearest number is no NaN. -/
theorem IsNearest.isNaN_eq_false (h : x.IsNearest q) : x.isNaN = false := by
  rw [isNaN]
  exact decide_eq_false h.code_le.not_gt

/-- Halfway between zero and the least number is half a unit: `midpoint 0 = 1 / 2`. -/
theorem midpoint_zero : midpoint 0 = 1 / 2 := by
  have hgap : gap 0 = 1 := rfl
  rw [midpoint, unitsOfCode_zero, hgap]
  norm_num

/-- Up to half a unit all is rounded to zero. -/
theorem RoundsTo.eq_zero_of_le (h : RoundsTo r n) (hle : r ≤ 1 / 2) : n = 0 := by
  by_contra hne
  -- The magnitude would be the first midpoint, which rounds down as 0 is even.
  have hmid : r = midpoint 0 :=
    le_antisymm (hle.trans midpoint_zero.ge) (h.midpoint_le (Nat.pos_of_ne_zero hne))
  have hzero : RoundsTo r 0 := ⟨nofun, hmid.le, nofun, fun _ => rfl⟩
  exact hne (h.unique hzero)

/-- Up to `1 / 2 ^ 1075` the nearest number is the zero without a sign. -/
theorem IsNearest.eq_zero_of_le (h : x.IsNearest q) (hq : 0 ≤ q) (hle : q ≤ 1 / 2 ^ 1075) :
    x = zero := by
  obtain ⟨n, hn⟩ := exists_roundsTo hq
  have hhalf : q * unitsOfOne ≤ 1 / 2 := by
    rw [cast_unitsOfOne]
    calc q * 2 ^ 1074 ≤ 1 / 2 ^ 1075 * 2 ^ 1074 := by gcongr
      _ = 1 / 2 := by
        rw [show 1075 = 1 + 1074 from rfl, pow_add, pow_one, div_mul_eq_mul_div, one_mul,
          div_mul_cancel_right₀ (by positivity), one_div]
  rw [(isNearest_iff_of_roundsTo hq hn).1 h, hn.eq_zero_of_le hhalf, Nat.zero_min, zero]

end LoxLex.Binary64
