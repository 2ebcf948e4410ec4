import LoxLex.Proofs.Decimal

/-! # Significant digits

`HasDigits n q` says that a rational number can be written with `n` digits and a power of ten. A
decimal without zeros at its end has no fewer digits than it shows (`hasDigits_value_iff`), since
decimals of one value differ in zeros at their end only (`coefficient_eq_of_value_eq`). -/

namespace LoxLex

/-- A rational number has `n` significant digits at most: its magnitude is a whole number of `n`
digits at most, times a power of ten. -/
def HasDigits (n : Nat) (q : ℚ) : Prop := ∃ d : Decimal, d.coefficient < 10 ^ n ∧ |q| = d.value

variable {m n : Nat} {q : ℚ}

/-- A number of `m` significant digits at most has `n` at most, for `m ≤ n`. -/
theorem HasDigits.mono (h : HasDigits m q) (hle : m ≤ n) : HasDigits n q := by
  obtain ⟨d, hlt, hvalue⟩ := h
  exact ⟨d, hlt.trans_le (Nat.pow_le_pow_right (by decide) hle), hvalue⟩

/-- The sign of a number makes no difference to its digits. -/
theorem hasDigits_abs_iff : HasDigits n |q| ↔ HasDigits n q := by
  rw [HasDigits, HasDigits, abs_abs]

/-- A number without digits is zero. -/
theorem HasDigits.eq_zero (h : HasDigits 0 q) : q = 0 := by
  obtain ⟨d, hlt, hvalue⟩ := h
  rw [pow_zero, Nat.lt_one_iff] at hlt
  rw [Decimal.value, hlt, Nat.cast_zero, zero_mul] at hvalue
  exact abs_eq_zero.1 hvalue

namespace Decimal

variable {d e : Decimal}

/-- Zeros at the end of the coefficient go to the power of ten. -/
theorem value_mul_pow (c k : Nat) (exponent : Int) :
    value ⟨c * 10 ^ k, exponent⟩ = value ⟨c, exponent + k⟩ := by
  rw [value, value, zpow_add₀ (by norm_num), zpow_natCast]
  push_cast
  ring

/-- Of two decimals of one value, the one of the smaller exponent has zeros at its end. -/
theorem coefficient_eq_of_value_eq (h : d.value = e.value) (hle : d.exponent ≤ e.exponent) :
    d.coefficient = e.coefficient * 10 ^ (e.exponent - d.exponent).toNat := by
  have hexponent : e.exponent = d.exponent + (e.exponent - d.exponent).toNat := by omega
  have hshift : e.value =
      value ⟨e.coefficient * 10 ^ (e.exponent - d.exponent).toNat, d.exponent⟩ := by
    rw [value_mul_pow, ← hexponent]
  have hpos : (10 : ℚ) ^ d.exponent ≠ 0 := zpow_ne_zero _ (by norm_num)
  rw [hshift, value, value, mul_left_inj' hpos] at h
  exact_mod_cast h

/-- A trimmed decimal does not end with a zero, unless it is zero. -/
theorem coefficient_trimmed_mod_ten (h : d.coefficient ≠ 0) : d.trimmed.coefficient % 10 ≠ 0 := by
  induction d using trimmed.induct with
  | case1 d hstop =>
    rw [trimmed, if_pos hstop]
    exact hstop.resolve_left h
  | case2 d hgo ih =>
    rw [trimmed, if_neg hgo]
    exact ih (by show d.coefficient / 10 ≠ 0; omega)

/-- A decimal without zeros at its end has as many significant digits as it shows. -/
theorem hasDigits_value_iff (h : d.coefficient % 10 ≠ 0) :
    HasDigits n d.value ↔ d.digits.length ≤ n := by
  rcases Nat.eq_zero_or_pos n with rfl | hn
  · have hne : d.digits.length ≠ 0 := mt List.eq_nil_of_length_eq_zero d.isDigits_digits.1
    have hvalue : d.value ≠ 0 := by
      have hcoefficient : (d.coefficient : ℚ) ≠ 0 := by
        rw [Nat.cast_ne_zero]
        omega
      exact mul_ne_zero hcoefficient (zpow_ne_zero _ (by norm_num))
    exact ⟨fun hdigits => absurd hdigits.eq_zero hvalue, fun hle => absurd (Nat.le_zero.1 hle) hne⟩
  · rw [digits, decimalText, Nat.length_toDigits_le_iff (by decide) hn]
    constructor
    · rintro ⟨e, hlt, hvalue⟩
      rw [abs_of_nonneg d.value_nonneg] at hvalue
      rcases le_or_gt e.exponent d.exponent with hle | hgt
      · have hcoefficient := coefficient_eq_of_value_eq hvalue.symm hle
        calc d.coefficient ≤ d.coefficient * 10 ^ (d.exponent - e.exponent).toNat :=
              Nat.le_mul_of_pos_right _ (Nat.pow_pos (by decide))
          _ = e.coefficient := hcoefficient.symm
          _ < 10 ^ n := hlt
      · -- It would end with a zero.
        have hcoefficient := coefficient_eq_of_value_eq hvalue hgt.le
        obtain ⟨k, hk⟩ : ∃ k, (e.exponent - d.exponent).toNat = k + 1 :=
          ⟨(e.exponent - d.exponent).toNat - 1, by omega⟩
        rw [hk, pow_succ, ← Nat.mul_assoc] at hcoefficient
        rw [hcoefficient, Nat.mul_mod_left] at h
        contradiction
    · intro hlt
      exact ⟨d, hlt, abs_of_nonneg d.value_nonneg⟩

end Decimal

/-- A coefficient up to `10 ^ k` has `k` significant digits at most: the power of ten itself has
one. -/
theorem hasDigits_of_le {k : Nat} (hk : 0 < k) (hn : n ≤ 10 ^ k) (exponent : Int) :
    HasDigits k (Decimal.value ⟨n, exponent⟩) := by
  rcases hn.lt_or_eq with hlt | rfl
  · exact ⟨_, hlt, abs_of_nonneg (Decimal.value_nonneg _)⟩
  · -- A power of ten has one digit.
    rw [← Nat.one_mul (10 ^ k), Decimal.value_mul_pow]
    exact ⟨_, Nat.one_lt_pow hk.ne' (by decide), abs_of_nonneg (Decimal.value_nonneg _)⟩

end LoxLex
