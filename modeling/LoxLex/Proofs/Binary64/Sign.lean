import LoxLex.Proofs.Binary64.Nearest

/-! # Rounding on either side of zero

`IsRounded x q` says of a number what the standard asks of the rounding of any rational number to
nearest with ties to even: it has the sign of `q`, and its magnitude is nearest. Rounding is the
same on either side of zero (`isRounded_neg_iff`), so a finite number is what `q` is rounded to if
the signs agree and the magnitude of `q` rounds to its code (`isRounded_iff`). -/

namespace LoxLex.Binary64

variable {x y : Binary64} {q : ℚ}

/-! ### The other sign -/

/-- The number with the other sign. -/
def neg (x : Binary64) : Binary64 := ⟨x.bits + 0x8000000000000000⟩

/-- The other sign is the other top bit: `x.neg.bits.toNat = (x.bits.toNat + 2 ^ 63) % 2 ^ 64`. -/
theorem toNat_bits_neg (x : Binary64) : x.neg.bits.toNat = (x.bits.toNat + 2 ^ 63) % 2 ^ 64 :=
  UInt64.toNat_add ..

/-- The other sign leaves the code: `x.neg.code = x.code`. -/
@[simp] theorem code_neg (x : Binary64) : x.neg.code = x.code := by
  rw [code, code, toNat_bits_neg, signPlace]
  omega

/-- The other sign is the other one: `x.neg.isNegative = !x.isNegative`. -/
@[simp] theorem isNegative_neg (x : Binary64) : x.neg.isNegative = !x.isNegative := by
  have hlt := x.bits.toNat_lt
  rw [isNegative, isNegative, toNat_bits_neg, signPlace, ← decide_not, decide_eq_decide]
  omega

/-- A number is told by its sign and its code. -/
theorem eq_of_isNegative_eq (hsign : x.isNegative = y.isNegative) (hcode : x.code = y.code) :
    x = y := by
  have hx := x.bits.toNat_lt
  have hy := y.bits.toNat_lt
  rw [isNegative, isNegative, decide_eq_decide, signPlace] at hsign
  rw [code, code, signPlace] at hcode
  have hbits : x.bits = y.bits := UInt64.toNat_inj.1 (by omega)
  exact congrArg Binary64.mk hbits

/-- The sign changed twice is the sign. -/
theorem involutive_neg : Function.Involutive neg := by
  intro x
  exact eq_of_isNegative_eq (by simp) (by simp)

/-- The other sign is the other side of zero: `x.neg.value = -x.value`. -/
theorem value_neg (x : Binary64) : x.neg.value = -x.value := by
  rw [value, value, signedUnits, signedUnits, units_eq, units_eq, code_neg, isNegative_neg]
  cases x.isNegative
  · rw [Bool.not_false, if_pos rfl, if_neg Bool.false_ne_true, neg_div]
  · rw [Bool.not_true, if_neg Bool.false_ne_true, if_pos rfl, neg_div, neg_neg]

/-- The other sign leaves a number finite, or not. -/
theorem isFinite_neg_iff : x.neg.IsFinite ↔ x.IsFinite := by
  rw [IsFinite, IsFinite, code_neg]

/-! ### Rounding -/

/-- **Rounding.** `x` is what a rational number `q` is rounded to. -/
structure IsRounded (x : Binary64) (q : ℚ) : Prop where
  sign : x.isNegative = decide (q < 0)
  infinite : overflow ≤ |q| → x.isInfinite = true
  finite : |q| < overflow → x.IsFinite ∧ x.IsClosest q

/-- With the other sign, `x` is closest to `-q` if it was closest to `q`. -/
theorem IsClosest.neg (h : x.IsClosest q) : x.neg.IsClosest (-q) := by
  have hdistance (y : Binary64) : |y.neg.value - -q| = |y.value - q| := by
    rw [value_neg, ← abs_neg]
    congr 1
    ring
  constructor
  · intro y hy
    rw [hdistance, ← involutive_neg y, hdistance]
    exact h.closest y.neg (isFinite_neg_iff.2 hy)
  · intro y hy htie hne
    rw [hdistance, ← involutive_neg y, hdistance] at htie
    rw [value_neg, ← involutive_neg y, value_neg, Ne, neg_inj] at hne
    rw [significand_mod_two, code_neg, ← significand_mod_two]
    exact h.even y.neg (isFinite_neg_iff.2 hy) htie hne

/-- With the other sign, `x` is what `-q` is rounded to if it was so for `q`, other than zero. -/
theorem IsRounded.neg (h : x.IsRounded q) (hq : q ≠ 0) : x.neg.IsRounded (-q) where
  sign := by
    rw [isNegative_neg, h.sign, ← decide_not, decide_eq_decide, not_lt, neg_neg_iff_pos]
    exact ⟨fun hle => lt_of_le_of_ne hle hq.symm, le_of_lt⟩
  infinite hover := by
    rw [abs_neg] at hover
    rw [isInfinite, code_neg]
    exact h.infinite hover
  finite hbelow := by
    rw [abs_neg] at hbelow
    exact ⟨isFinite_neg_iff.2 (h.finite hbelow).1, (h.finite hbelow).2.neg⟩

/-- **Either side of zero.** The other sign on both makes no difference. -/
theorem isRounded_neg_iff (hq : q ≠ 0) : x.neg.IsRounded (-q) ↔ x.IsRounded q := by
  constructor
  · intro h
    have hback := h.neg (neg_ne_zero.2 hq)
    rwa [involutive_neg, neg_neg] at hback
  · intro h
    exact h.neg hq

/-- Not below zero it is the nearest number. -/
theorem isRounded_iff_isNearest (hq : 0 ≤ q) : x.IsRounded q ↔ x.IsNearest q := by
  have hsign : decide (q < 0) = false := decide_eq_false hq.not_gt
  constructor
  · intro h
    have hx : x.isNegative = false := h.sign.trans hsign
    refine ⟨hx, fun hover => ?_, fun hbelow => h.finite ((abs_of_nonneg hq).trans_lt hbelow)⟩
    have hcode : x.code = infinityCode := by
      simpa [isInfinite] using h.infinite ((abs_of_nonneg hq).symm ▸ hover)
    rw [infinity, ← hcode, ofCode_code hx]
  · intro h
    refine ⟨h.sign.trans hsign.symm, fun hover => ?_, fun hbelow => ?_⟩
    · rw [h.infinite (abs_of_nonneg hq ▸ hover), isInfinite, infinity, code_ofCode le_rfl,
        beq_self_eq_true]
    · exact h.finite (abs_of_nonneg hq ▸ hbelow)

/-- A finite number is the nearest to `q`, not below zero, if it has no sign and `q` in units rounds
to its code. -/
theorem isNearest_iff_roundsTo (hfinite : x.IsFinite) (hq : 0 ≤ q) :
    x.IsNearest q ↔ x.isNegative = false ∧ RoundsTo (q * unitsOfOne) x.code := by
  constructor
  · intro h
    obtain ⟨n, hn⟩ := exists_roundsTo hq
    have hcode : x.code = min n infinityCode := by
      rw [(isNearest_iff_of_roundsTo hq hn).1 h, code_ofCode (Nat.min_le_right ..)]
    have hn' : x.code = n := by
      rw [IsFinite] at hfinite
      omega
    exact ⟨h.sign, hn' ▸ hn⟩
  · rintro ⟨hsign, hrounds⟩
    rw [isNearest_iff_of_roundsTo hq hrounds, Nat.min_eq_left hfinite.le, ofCode_code hsign]

/-- **Rounding to a finite number**, by sign and code. -/
theorem isRounded_iff (hfinite : x.IsFinite) :
    x.IsRounded q ↔ x.isNegative = decide (q < 0) ∧ RoundsTo (|q| * unitsOfOne) x.code := by
  rcases lt_or_ge q 0 with hneg | hnonneg
  · have hpos : 0 ≤ -q := by linarith
    rw [← isRounded_neg_iff hneg.ne, isRounded_iff_isNearest hpos,
      isNearest_iff_roundsTo (isFinite_neg_iff.2 hfinite) hpos, isNegative_neg, code_neg,
      abs_of_neg hneg, decide_eq_true hneg, Bool.not_eq_false']
  · rw [isRounded_iff_isNearest hnonneg, isNearest_iff_roundsTo hfinite hnonneg,
      abs_of_nonneg hnonneg, decide_eq_false hnonneg.not_gt]

end LoxLex.Binary64
