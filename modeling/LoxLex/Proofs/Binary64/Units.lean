import Mathlib.Algebra.Order.Field.Rat
import Mathlib.Order.Monotone.Basic
import Mathlib.Tactic.Linarith
import Mathlib.Tactic.Positivity
import Mathlib.Tactic.Ring
import LoxLex.Binary64.Basic

/-! # Codes and magnitudes

The codes of the numbers with no sign count their magnitudes upwards: one code further the magnitude
is one gap larger (`unitsOfCode_succ`), and a gap is a power of two that doubles every `2^52` codes.
So magnitudes are compared by their codes (`strictMono_unitsOfCode`). Nothing ends at the code of
the infinity here: the magnitudes go on as if there were exponents without end. -/

namespace LoxLex.Binary64

/-! ### Numbers by their codes -/

/-- The infinity without a sign. -/
def infinity : Binary64 := ofCode infinityCode

/-- The zero without a sign. -/
def zero : Binary64 := ofCode 0

/-- Whether a number is finite. -/
def IsFinite (x : Binary64) : Prop := x.code < infinityCode

/-- Whether a number is finite can be read off its code. -/
instance (x : Binary64) : Decidable x.IsFinite := inferInstanceAs (Decidable (_ < _))

section

variable {n : Nat} {x y : Binary64}

/-- The number of the code `n` has the bits of `n`. -/
theorem toNat_bits_ofCode (h : n ≤ infinityCode) : (ofCode n).bits.toNat = n := by
  show (UInt64.ofNat n).toNat = n
  rw [UInt64.toNat_ofNat']
  apply Nat.mod_eq_of_lt
  rw [infinityCode] at h
  omega

/-- The code of the number of the code `n` is `n`. -/
theorem code_ofCode (h : n ≤ infinityCode) : (ofCode n).code = n := by
  rw [code, toNat_bits_ofCode h]
  apply Nat.mod_eq_of_lt
  rw [infinityCode] at h
  rw [signPlace]
  omega

/-- The number of a code has no sign. -/
theorem isNegative_ofCode (h : n ≤ infinityCode) : (ofCode n).isNegative = false := by
  rw [isNegative, toNat_bits_ofCode h]
  rw [infinityCode] at h
  exact decide_eq_false (by rw [signPlace]; omega)

/-- A number without a sign is told by its code. -/
theorem ofCode_code (h : x.isNegative = false) : ofCode x.code = x := by
  have hlt : x.bits.toNat < signPlace := by simpa [isNegative] using h
  rw [code, Nat.mod_eq_of_lt hlt, ofCode, UInt64.ofNat_toNat]

end

/-! ### Magnitudes -/

/-- The magnitude of a code, in units. -/
def unitsOfCode (n : Nat) : Nat :=
  (n % leadingPlace + if n < leadingPlace then 0 else leadingPlace) * 2 ^ (n / leadingPlace - 1)

/-- How much larger the magnitude of the next code is, in units. -/
def gap (n : Nat) : Nat := 2 ^ (n / leadingPlace - 1)

/-- The magnitude of a number is that of its code: `x.units = unitsOfCode x.code`. -/
theorem units_eq (x : Binary64) : x.units = unitsOfCode x.code := rfl

/-- The next code has a larger magnitude: `0 < gap n`. -/
theorem gap_pos (n : Nat) : 0 < gap n := Nat.two_pow_pos _

/-- **One code further.** -/
theorem unitsOfCode_succ (n : Nat) : unitsOfCode (n + 1) = unitsOfCode n + gap n := by
  unfold unitsOfCode gap
  rw [leadingPlace]
  by_cases hlast : (n + 1) % 0x10000000000000 = 0
  · -- The next code begins a range of another gap, unless it is the first that does.
    obtain ⟨a, ha⟩ := Nat.dvd_of_mod_eq_zero hlast
    rcases a with _ | _ | a
    · omega
    · obtain rfl : n = 0xFFFFFFFFFFFFF := by omega
      rfl
    · have hquotient : (n + 1) / 0x10000000000000 - 1 = a + 1 := by omega
      have hquotient' : n / 0x10000000000000 - 1 = a := by omega
      have hrest : n % 0x10000000000000 = 0xFFFFFFFFFFFFF := by omega
      rw [hlast, hquotient, hquotient', hrest, if_neg (by omega), if_neg (by omega), pow_succ]
      ring
  · have hquotient : (n + 1) / 0x10000000000000 = n / 0x10000000000000 := by omega
    have hrest : (n + 1) % 0x10000000000000 = n % 0x10000000000000 + 1 := by omega
    have hsmall : n + 1 < 0x10000000000000 ↔ n < 0x10000000000000 := by omega
    rw [hquotient, hrest]
    simp only [hsmall]
    ring

/-- Magnitudes are in the order of their codes. -/
theorem strictMono_unitsOfCode : StrictMono unitsOfCode := by
  apply strictMono_nat_of_lt_succ
  intro n
  rw [unitsOfCode_succ]
  exact Nat.lt_add_of_pos_right (gap_pos n)

/-- The magnitude of the code `0` is `0`. -/
@[simp] theorem unitsOfCode_zero : unitsOfCode 0 = 0 := rfl

/-- A significand of 53 bits at most, with a leading bit unless the scale is the least, is the
magnitude of a code; this holds also of the next power of two. -/
theorem unitsOfCode_shift {shift kept : Nat} (hle : kept ≤ 2 * leadingPlace)
    (hleading : shift = 0 ∨ leadingPlace ≤ kept) :
    unitsOfCode (shift * leadingPlace + kept) = kept * 2 ^ shift := by
  unfold unitsOfCode
  rw [leadingPlace] at *
  rcases Nat.lt_trichotomy kept (2 * 0x10000000000000) with hlt | heq | hgt
  · by_cases hsmall : kept < 0x10000000000000
    · obtain rfl : shift = 0 := by omega
      rw [Nat.zero_mul, Nat.zero_add, if_pos hsmall, Nat.mod_eq_of_lt hsmall,
        Nat.div_eq_of_lt hsmall]
      rfl
    · have hquotient : (shift * 0x10000000000000 + kept) / 0x10000000000000 - 1 = shift := by omega
      have hsum : (shift * 0x10000000000000 + kept) % 0x10000000000000 + 0x10000000000000 =
          kept := by omega
      rw [if_neg (by omega), hquotient, hsum]
  · have hquotient : (shift * 0x10000000000000 + kept) / 0x10000000000000 - 1 = shift + 1 := by
      omega
    have hrest : (shift * 0x10000000000000 + kept) % 0x10000000000000 = 0 := by omega
    rw [if_neg (by omega), hquotient, hrest, heq, pow_succ]
    ring
  · omega

/-- The gap behind a significand of 53 bits at most. -/
theorem gap_shift {shift kept : Nat} (hlt : kept < 2 * leadingPlace)
    (hleading : shift = 0 ∨ leadingPlace ≤ kept) :
    gap (shift * leadingPlace + kept) = 2 ^ shift := by
  unfold gap
  rw [leadingPlace] at *
  congr 1
  omega

/-! ### Midpoints -/

/-- Halfway between the magnitude of a code and the next, in units. -/
def midpoint (n : Nat) : ℚ := unitsOfCode n + gap n / 2

/-- The midpoint is the mean of the two magnitudes: `(unitsOfCode n + unitsOfCode (n + 1)) / 2`. -/
theorem midpoint_eq (n : Nat) : midpoint n = (unitsOfCode n + unitsOfCode (n + 1)) / 2 := by
  rw [midpoint, unitsOfCode_succ]
  push_cast
  ring

/-- The midpoint is above the magnitude of the code in front of it. -/
theorem unitsOfCode_lt_midpoint (n : Nat) : (unitsOfCode n : ℚ) < midpoint n := by
  have hpos : (0 : ℚ) < gap n := by exact_mod_cast gap_pos n
  rw [midpoint]
  linarith

/-- The midpoint is below the magnitude of the code behind it. -/
theorem midpoint_lt_unitsOfCode_succ (n : Nat) : midpoint n < unitsOfCode (n + 1) := by
  have hpos : (0 : ℚ) < gap n := by exact_mod_cast gap_pos n
  rw [midpoint, unitsOfCode_succ]
  push_cast
  linarith

/-- Midpoints are in the order of the codes. -/
theorem strictMono_midpoint : StrictMono midpoint := by
  intro m n hlt
  have hm : (unitsOfCode m : ℚ) < unitsOfCode n := by exact_mod_cast strictMono_unitsOfCode hlt
  have hsucc : (unitsOfCode (m + 1) : ℚ) < unitsOfCode (n + 1) := by
    exact_mod_cast strictMono_unitsOfCode (Nat.succ_lt_succ hlt)
  rw [midpoint_eq, midpoint_eq]
  linarith

/-- The midpoint behind a significand of 53 bits at most. -/
theorem midpoint_shift {shift kept : Nat} (hlt : kept < 2 * leadingPlace)
    (hleading : shift = 0 ∨ leadingPlace ≤ kept) :
    midpoint (shift * leadingPlace + kept) = (kept + 1 / 2) * 2 ^ shift := by
  rw [midpoint, unitsOfCode_shift hlt.le hleading, gap_shift hlt hleading]
  push_cast
  ring

end LoxLex.Binary64
