/-! # Binary64 numbers

The IEEE 754 numbers of 64 bits, given by their bits. Leaving the sign aside, the bits are a code
that counts the numbers upwards from 0: the code of the infinity comes after those of the finite
numbers, and those of the NaNs after it. Every finite magnitude is a whole number of units of
`2^(-1074)`, the least positive number, so all that follows is arithmetic of natural numbers. -/

namespace LoxLex

/-- A binary64 number. Equality is that of the bits; `Binary64.eqv` is the comparison of values. -/
structure Binary64 where
  bits : UInt64
  deriving DecidableEq, Repr

namespace Binary64

/-! ### Sign and magnitude -/

/-- The place value of the sign bit, `2^63`. -/
def signPlace : Nat := 0x8000000000000000

/-- The place value of the bit in front of the 52 that are stored of a significand, `2^52`. It is
also the distance between the codes of a number and of its double. -/
def leadingPlace : Nat := 0x10000000000000

/-- The code of the infinity, one past that of the greatest finite number. -/
def infinityCode : Nat := 0x7FF0000000000000

/-- Whether the sign bit is set. -/
def isNegative (x : Binary64) : Bool := signPlace ≤ x.bits.toNat

/-- The bits but for the sign. -/
def code (x : Binary64) : Nat := x.bits.toNat % signPlace

/-- The number of a given code, with the sign bit clear. -/
def ofCode (n : Nat) : Binary64 := ⟨UInt64.ofNat n⟩

/-- Whether this is no number. -/
def isNaN (x : Binary64) : Bool := infinityCode < x.code

/-- Whether this is one of the two infinities. -/
def isInfinite (x : Binary64) : Bool := x.code == infinityCode

/-- Whether this is one of the two zeros. -/
def isZero (x : Binary64) : Bool := x.code == 0

/-! ### The value of a finite number -/

/-- How many units make one. -/
def unitsOfOne : Nat := Nat.pow 2 1074

/-- The significand: a leading bit stands before the stored ones, except near zero. -/
def significand (x : Binary64) : Nat :=
  x.code % leadingPlace + if x.code < leadingPlace then 0 else leadingPlace

/-- The power of two that the significand is to be multiplied with, in units. -/
def scale (x : Binary64) : Nat := x.code / leadingPlace - 1

/-- The magnitude in units. -/
def units (x : Binary64) : Nat := x.significand * Nat.pow 2 x.scale

/-! ### Comparison of values -/

/-- Equality of values: a NaN differs from every number and itself, and the zeros are equal. -/
def eqv (x y : Binary64) : Bool :=
  !x.isNaN && !y.isNaN && (x == y || x.isZero && y.isZero)

end Binary64

end LoxLex
