import Mathlib.Algebra.Order.Field.Basic
import Mathlib.Algebra.Order.Group.Abs
import Mathlib.Data.Nat.Log
import Mathlib.Tactic.FieldSimp
import Mathlib.Tactic.NormNum
import LoxLex.Binary64.Nearest
import LoxLex.Proofs.Binary64.Units

/-! # Rounding to nearest

`RoundsTo r n` says that a magnitude of `r` units rounds to that of the code `n`, by the midpoints
on either side of the code. There is one such code for each magnitude (`RoundsTo.unique`), none has
a magnitude closer to `r` (`RoundsTo.abs_sub_lt_or`), and it is the one that `Binary64.nearest`
finds (`roundsTo_nearestCode`): the quotient brought to 53 bits is rounded as it is as a whole
number (`IsBrought.roundsTo`). -/

namespace LoxLex

/-! ### Rounding to a whole number -/

/-- The whole number `k` is what `t` is rounded to: `t` is no further from it than a half, and a
half only if it is even. -/
structure RoundsHalfEven (t : ℚ) (k : Nat) : Prop where
  lower : (k : ℚ) ≤ t + 1 / 2
  upper : t ≤ k + 1 / 2
  lower_even : (k : ℚ) = t + 1 / 2 → k % 2 = 0
  upper_even : t = k + 1 / 2 → k % 2 = 0

/-- **What `roundHalfEven` gives** is what the quotient `num / den` is rounded to. -/
theorem roundsHalfEven_roundHalfEven (num : Nat) {den : Nat} (hden : 0 < den) :
    RoundsHalfEven (num / den) (roundHalfEven num den) := by
  have hpos : (0 : ℚ) < den := by exact_mod_cast hden
  -- The quotient is a whole number, `num / den` rounded down, and a rest below one.
  have hsum : (num : ℚ) = den * (num / den : Nat) + (num % den : Nat) := by
    exact_mod_cast (Nat.div_add_mod num den).symm
  have hquotient : (num / den : ℚ) = (num / den : Nat) + (num % den : Nat) / (den : ℚ) := by
    rw [div_eq_iff hpos.ne', add_mul, div_mul_cancel₀ _ hpos.ne', mul_comm, ← hsum]
  have hrest : ((num % den : Nat) : ℚ) / den < 1 := by
    rw [div_lt_one hpos]
    exact_mod_cast Nat.mod_lt num hden
  rw [hquotient]
  unfold roundHalfEven
  generalize num / den = down
  generalize num % den = left at *
  have hnonneg : 0 ≤ left / (den : ℚ) := by positivity
  rcases Nat.lt_trichotomy (2 * left) den with hlt | heq | hgt
  · have hhalf : left / (den : ℚ) < 1 / 2 := by
      rw [div_lt_div_iff₀ hpos two_pos]
      exact_mod_cast (by omega : left * 2 < 1 * den)
    simp only [if_pos hlt]
    refine ⟨by linarith, by linarith, fun htie => ?_, fun htie => ?_⟩ <;> linarith
  · have hhalf : left / (den : ℚ) = 1 / 2 := by
      rw [div_eq_div_iff hpos.ne' two_ne_zero]
      exact_mod_cast (by omega : left * 2 = 1 * den)
    have heven : (down + down % 2) % 2 = 0 := by omega
    have hbit : ((down % 2 : Nat) : ℚ) ≤ 1 := by exact_mod_cast (by omega : down % 2 ≤ 1)
    have hbit_nonneg : (0 : ℚ) ≤ (down % 2 : Nat) := by positivity
    simp only [if_neg (Nat.lt_irrefl _), heq, hhalf]
    refine ⟨?_, ?_, fun _ => heven, fun _ => heven⟩ <;> rw [Nat.cast_add] <;> linarith
  · have hhalf : 1 / 2 < left / (den : ℚ) := by
      rw [div_lt_div_iff₀ two_pos hpos]
      exact_mod_cast (by omega : 1 * den < left * 2)
    simp only [if_neg hgt.le.not_gt, if_pos hgt]
    refine ⟨?_, ?_, fun htie => ?_, fun htie => ?_⟩ <;> push_cast at * <;> linarith

namespace Binary64

/-! ### Rounding to a code -/

/-- **Rounding by midpoints.** A magnitude of `r` units rounds to that of the code `n`: it lies
between the midpoints on either side, and on one of them only if the code is even. -/
structure RoundsTo (r : ℚ) (n : Nat) : Prop where
  lower : ∀ m, n = m + 1 → midpoint m ≤ r
  upper : r ≤ midpoint n
  lower_even : ∀ m, n = m + 1 → midpoint m = r → n % 2 = 0
  upper_even : r = midpoint n → n % 2 = 0

variable {r : ℚ} {m n : Nat}

/-- What rounds to `n` is not below the midpoint behind any smaller code: `midpoint m ≤ r` for
`m < n`. -/
theorem RoundsTo.midpoint_le (h : RoundsTo r n) (hlt : m < n) : midpoint m ≤ r := by
  obtain ⟨k, rfl⟩ := Nat.exists_eq_add_one_of_ne_zero (Nat.ne_zero_of_lt hlt)
  exact (strictMono_midpoint.monotone (Nat.le_of_lt_succ hlt)).trans (h.lower k rfl)

/-- What rounds to a code rounds to none below it. -/
theorem RoundsTo.not_lt (hm : RoundsTo r m) (hn : RoundsTo r n) : ¬ m < n := by
  intro hlt
  -- Both codes would have the midpoint at `r` between them, and be neighbours; one of two is odd.
  have hmid : midpoint m = r := le_antisymm (hn.midpoint_le hlt) hm.upper
  have hnext : n = m + 1 := by
    by_contra hne
    have hle : midpoint (m + 1) ≤ r := hn.midpoint_le (by omega)
    exact absurd (strictMono_midpoint (Nat.lt_succ_self m)) (by rw [hmid]; exact hle.not_gt)
  have heven : m % 2 = 0 := hm.upper_even hmid.symm
  have heven' : n % 2 = 0 := hn.lower_even m hnext hmid
  omega

/-- **One code for each magnitude.** -/
theorem RoundsTo.unique (hm : RoundsTo r m) (hn : RoundsTo r n) : m = n :=
  Nat.le_antisymm (Nat.le_of_not_lt (hn.not_lt hm)) (Nat.le_of_not_lt (hm.not_lt hn))

/-- The magnitude of a code rounds to it. -/
theorem roundsTo_unitsOfCode (n : Nat) : RoundsTo (unitsOfCode n) n where
  lower := by
    rintro m rfl
    exact (midpoint_lt_unitsOfCode_succ m).le
  upper := (unitsOfCode_lt_midpoint n).le
  lower_even := by
    rintro m rfl htie
    exact absurd htie (midpoint_lt_unitsOfCode_succ m).ne
  upper_even htie := absurd htie (unitsOfCode_lt_midpoint n).ne

/-- What lies between two magnitudes that round to a code rounds to it too. -/
theorem RoundsTo.of_between {a b : ℚ} (ha : RoundsTo a n) (hb : RoundsTo b n) (har : a ≤ r)
    (hrb : r ≤ b) : RoundsTo r n where
  lower m hm := (ha.lower m hm).trans har
  upper := hrb.trans hb.upper
  lower_even := by
    rintro m hm rfl
    exact ha.lower_even m hm (le_antisymm (ha.lower m hm) har)
  upper_even := by
    rintro rfl
    exact hb.upper_even (le_antisymm hb.upper hrb)

/-- Of two numbers the upper one is closer to what is above their midpoint. -/
theorem abs_sub_lt_of_add_lt {a b r : ℚ} (hlt : a < b) (h : a + b < 2 * r) : |b - r| < |a - r| := by
  rw [abs_of_neg (by linarith : a - r < 0), abs_lt]
  constructor <;> linarith

/-- Of two numbers the lower one is closer to what is below their midpoint. -/
theorem abs_sub_lt_of_lt_add {a b r : ℚ} (hlt : a < b) (h : 2 * r < a + b) : |a - r| < |b - r| := by
  rw [abs_of_pos (by linarith : 0 < b - r), abs_lt]
  constructor <;> linarith

/-- Two numbers are as far from their midpoint: `a + b = 2 * r` gives `|a - r| = |b - r|`. -/
theorem abs_sub_eq_of_add_eq {a b r : ℚ} (h : a + b = 2 * r) : |a - r| = |b - r| := by
  rw [← abs_neg]
  congr 1
  linarith

/-- What is not below a midpoint is closer to the code above it than to any below, but for a tie. -/
theorem abs_sub_lt_or_of_midpoint_le (hlt : m < n + 1) (h : midpoint n ≤ r) :
    |unitsOfCode (n + 1) - r| < |unitsOfCode m - r| ∨
      |unitsOfCode (n + 1) - r| = |unitsOfCode m - r| ∧ m = n ∧ midpoint n = r := by
  have hunits : (unitsOfCode m : ℚ) < unitsOfCode (n + 1) := by
    exact_mod_cast strictMono_unitsOfCode hlt
  have hmid := midpoint_eq n
  rcases (Nat.le_of_lt_succ hlt).lt_or_eq with hbelow | rfl
  · have hn : (unitsOfCode m : ℚ) < unitsOfCode n := by
      exact_mod_cast strictMono_unitsOfCode hbelow
    exact .inl (abs_sub_lt_of_add_lt hunits (by linarith))
  · rcases h.lt_or_eq with hinside | htie
    · exact .inl (abs_sub_lt_of_add_lt hunits (by linarith))
    · exact .inr ⟨(abs_sub_eq_of_add_eq (by linarith)).symm, rfl, htie⟩

/-- What is not above a midpoint is closer to the code below it than to any above, but for a tie. -/
theorem abs_sub_lt_or_of_le_midpoint (hlt : n < m) (h : r ≤ midpoint n) :
    |unitsOfCode n - r| < |unitsOfCode m - r| ∨
      |unitsOfCode n - r| = |unitsOfCode m - r| ∧ m = n + 1 ∧ r = midpoint n := by
  have hunits : (unitsOfCode n : ℚ) < unitsOfCode m := by
    exact_mod_cast strictMono_unitsOfCode hlt
  have hmid := midpoint_eq n
  rcases (Nat.succ_le_of_lt hlt).lt_or_eq with habove | rfl
  · have hn : (unitsOfCode (n + 1) : ℚ) < unitsOfCode m := by
      exact_mod_cast strictMono_unitsOfCode habove
    exact .inl (abs_sub_lt_of_lt_add hunits (by linarith))
  · rcases h.lt_or_eq with hinside | htie
    · exact .inl (abs_sub_lt_of_lt_add hunits (by linarith))
    · exact .inr ⟨abs_sub_eq_of_add_eq (by linarith), rfl, htie⟩

/-- **Closeness.** No code has a magnitude closer to `r` than the one that `r` rounds to; another
code that is as close is odd, and that one even. -/
theorem RoundsTo.abs_sub_lt_or (h : RoundsTo r n) (hne : m ≠ n) :
    |unitsOfCode n - r| < |unitsOfCode m - r| ∨
      |unitsOfCode n - r| = |unitsOfCode m - r| ∧ n % 2 = 0 ∧ m % 2 = 1 := by
  rcases Nat.lt_or_gt_of_ne hne with hlt | hgt
  · obtain ⟨k, rfl⟩ := Nat.exists_eq_add_one_of_ne_zero (Nat.ne_zero_of_lt hlt)
    refine (abs_sub_lt_or_of_midpoint_le hlt (h.lower k rfl)).imp_right ?_
    rintro ⟨heq, rfl, htie⟩
    have heven := h.lower_even m rfl htie
    exact ⟨heq, heven, by omega⟩
  · refine (abs_sub_lt_or_of_le_midpoint hgt h.upper).imp_right ?_
    rintro ⟨heq, rfl, htie⟩
    have heven := h.upper_even htie
    exact ⟨heq, heven, by omega⟩

/-! ### The code that is found -/

/-- A magnitude that is brought to a significand of 53 bits at most: it is not scaled, or has its
leading bit. -/
structure IsBrought (t : ℚ) (shift : Nat) : Prop where
  lt : t < 2 * leadingPlace
  leading : shift = 0 ∨ leadingPlace ≤ t

section

variable {t : ℚ} {kept shift : Nat}

/-- Rounded up, it may come to the next power of two. -/
theorem IsBrought.kept_le (ht : IsBrought t shift) (h : RoundsHalfEven t kept) :
    kept ≤ 2 * leadingPlace := by
  have hcast : (kept : ℚ) < 2 * leadingPlace + 1 := by linarith [h.lower, ht.lt]
  exact Nat.le_of_lt_succ (by exact_mod_cast hcast)

/-- A magnitude that is scaled keeps its leading bit when it is rounded to `kept`. -/
theorem IsBrought.le_kept (ht : IsBrought t shift) (h : RoundsHalfEven t kept) :
    shift = 0 ∨ leadingPlace ≤ kept := by
  refine ht.leading.imp_right fun hle => ?_
  have hcast : (leadingPlace : ℚ) < kept + 1 := by linarith [h.upper]
  exact Nat.le_of_lt_succ (by exact_mod_cast hcast)

/-- The code of the rounded significand has `kept * 2 ^ shift` units. -/
theorem IsBrought.unitsOfCode_eq (ht : IsBrought t shift) (h : RoundsHalfEven t kept) :
    (unitsOfCode (shift * leadingPlace + kept) : ℚ) = kept * 2 ^ shift := by
  rw [unitsOfCode_shift (ht.kept_le h) (ht.le_kept h)]
  push_cast
  rfl

/-- It is not above the midpoint behind the code, and there only if it is rounded to even. -/
theorem IsBrought.le_midpoint (ht : IsBrought t shift) (h : RoundsHalfEven t kept) :
    t * 2 ^ shift ≤ midpoint (shift * leadingPlace + kept) ∧
      (t * 2 ^ shift = midpoint (shift * leadingPlace + kept) → kept % 2 = 0) := by
  have hpow : (0 : ℚ) < 2 ^ shift := by positivity
  rcases (ht.kept_le h).lt_or_eq with hsmall | hpower
  · rw [midpoint_shift hsmall (ht.le_kept h), mul_le_mul_iff_left₀ hpow, mul_left_inj' hpow.ne']
    exact ⟨h.upper, h.upper_even⟩
  · -- Rounded up to the next power of two: the magnitude is below that of the code.
    have hstrict : t * 2 ^ shift < midpoint (shift * leadingPlace + kept) := by
      refine lt_trans ?_ (unitsOfCode_lt_midpoint _)
      rw [ht.unitsOfCode_eq h, mul_lt_mul_iff_left₀ hpow, hpower]
      exact_mod_cast ht.lt
    exact ⟨hstrict.le, fun htie => absurd htie hstrict.ne⟩

/-- It is not below the midpoint in front of the code, and there only if it is rounded to even. -/
theorem IsBrought.midpoint_le {m : Nat} (ht : IsBrought t shift) (h : RoundsHalfEven t kept)
    (hm : shift * leadingPlace + kept = m + 1) :
    midpoint m ≤ t * 2 ^ shift ∧ (midpoint m = t * 2 ^ shift → kept % 2 = 0) := by
  have hpow : (0 : ℚ) < 2 ^ shift := by positivity
  by_cases hinner : shift = 0 ∨ leadingPlace < kept
  · obtain ⟨k, rfl⟩ : ∃ k, kept = k + 1 := by
      refine Nat.exists_eq_add_one_of_ne_zero ?_
      rintro rfl
      rcases hinner with rfl | hlt <;> omega
    obtain rfl : m = shift * leadingPlace + k := by omega
    have hlower := h.lower
    have heven := h.lower_even
    rw [midpoint_shift (ht.kept_le h) (hinner.imp_right Nat.le_of_lt_succ),
      mul_le_mul_iff_left₀ hpow, mul_left_inj' hpow.ne']
    push_cast at hlower heven
    exact ⟨by linarith, fun htie => heven (by linarith)⟩
  · -- A power of two: the magnitude is not below that of the code.
    obtain ⟨hshift, hpower⟩ := not_or.1 hinner
    have hfirst : kept = leadingPlace :=
      Nat.le_antisymm (Nat.le_of_not_lt hpower) ((ht.le_kept h).resolve_left hshift)
    have hstrict : midpoint m < t * 2 ^ shift := by
      refine lt_of_lt_of_le (midpoint_lt_unitsOfCode_succ m) ?_
      rw [← hm, ht.unitsOfCode_eq h, mul_le_mul_iff_left₀ hpow, hfirst]
      exact ht.leading.resolve_left hshift
    exact ⟨hstrict.le, fun htie => absurd htie hstrict.ne⟩

/-- **Rounding a significand.** A magnitude that is brought to 53 bits rounds as the whole number
that it is brought to. -/
theorem IsBrought.roundsTo (ht : IsBrought t shift) (h : RoundsHalfEven t kept) :
    RoundsTo (t * 2 ^ shift) (shift * leadingPlace + kept) := by
  have hparity : (shift * leadingPlace + kept) % 2 = kept % 2 := by
    rw [leadingPlace]
    omega
  obtain ⟨hupper, hupper_even⟩ := ht.le_midpoint h
  refine ⟨fun m hm => (ht.midpoint_le h hm).1, hupper, fun m hm htie => ?_, fun htie => ?_⟩
  · exact hparity.trans ((ht.midpoint_le h hm).2 htie)
  · exact hparity.trans (hupper_even htie)

end

/-- The code that `nearest` finds, which may lie behind that of the infinity. -/
def nearestCode (num den : Nat) : Nat :=
  let scaled := num * unitsOfOne
  let shift := (scaled / den).log2 - 52
  shift * leadingPlace + roundHalfEven scaled (den * 2 ^ shift)

/-- `nearest` gives the code that is found, up to that of the infinity. -/
theorem nearest_eq (num den : Nat) :
    nearest num den = ofCode (min (nearestCode num den) infinityCode) := rfl

/-- A quotient has 53 bits at most when it is scaled by the bits beyond 53 of its whole part. -/
theorem lt_mul_two_pow_shift (num : Nat) {den : Nat} (hden : 0 < den) :
    num < 2 * leadingPlace * (den * 2 ^ ((num / den).log2 - 52)) := by
  have hlog : num / den + 1 ≤ 2 ^ ((num / den).log2 + 1) := Nat.lt_log2_self
  calc num < den * (num / den + 1) := Nat.lt_mul_div_succ num hden
    _ ≤ den * 2 ^ ((num / den).log2 + 1) := Nat.mul_le_mul_left den hlog
    _ ≤ den * 2 ^ (53 + ((num / den).log2 - 52)) :=
      Nat.mul_le_mul_left den (Nat.pow_le_pow_right two_pos (by omega))
    _ = 2 * leadingPlace * (den * 2 ^ ((num / den).log2 - 52)) := by
      rw [pow_add, leadingPlace]
      ring

/-- It has no fewer than 53 bits, unless it is not scaled at all. -/
theorem mul_two_pow_shift_le (num den : Nat) (hshift : (num / den).log2 - 52 ≠ 0) :
    leadingPlace * (den * 2 ^ ((num / den).log2 - 52)) ≤ num := by
  have hne : num / den ≠ 0 := by
    intro hzero
    rw [hzero, Nat.log2_zero] at hshift
    contradiction
  calc leadingPlace * (den * 2 ^ ((num / den).log2 - 52))
      = den * 2 ^ (52 + ((num / den).log2 - 52)) := by
        rw [pow_add, leadingPlace]
        ring
    _ = den * 2 ^ (num / den).log2 := by
        rw [Nat.add_sub_cancel' (by omega)]
    _ ≤ den * (num / den) := Nat.mul_le_mul_left den (Nat.log2_self_le hne)
    _ ≤ num := Nat.mul_div_le num den

/-- **The code that is found** is the one that the quotient rounds to. -/
theorem roundsTo_nearestCode (num : Nat) {den : Nat} (hden : 0 < den) :
    RoundsTo (num / den * unitsOfOne) (nearestCode num den) := by
  unfold nearestCode
  -- How many units make one does not matter.
  generalize unitsOfOne = u
  generalize hscaled : num * u = scaled
  have hlt := lt_mul_two_pow_shift scaled hden
  have hle := mul_two_pow_shift_le scaled den
  simp only
  generalize (scaled / den).log2 - 52 = shift at *
  have hpos : 0 < den * 2 ^ shift := Nat.mul_pos hden (Nat.two_pow_pos shift)
  have hposQ : (0 : ℚ) < (den * 2 ^ shift : Nat) := by exact_mod_cast hpos
  have hsplit : (num / den * u : ℚ) = scaled / (den * 2 ^ shift : Nat) * 2 ^ shift := by
    have hdenQ : (den : ℚ) ≠ 0 := by exact_mod_cast hden.ne'
    rw [← hscaled]
    push_cast
    field_simp
  have hbrought : IsBrought (scaled / (den * 2 ^ shift : Nat)) shift := by
    constructor
    · rw [div_lt_iff₀ hposQ]
      exact_mod_cast hlt
    · refine or_iff_not_imp_left.2 fun hshift => ?_
      rw [le_div_iff₀ hposQ]
      exact_mod_cast hle hshift
  rw [hsplit]
  exact hbrought.roundsTo (roundsHalfEven_roundHalfEven scaled hpos)

end Binary64

end LoxLex
