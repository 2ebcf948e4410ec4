import LoxLex.Text.Basic

/-! # Decimals

A decimal is a coefficient and a power of ten. It has two written forms: the plain one, which
always shows a fractional part (`120.0`, `0.05`), and the exponent form, with one digit before the
point and no fractional part where none is needed (`1.5e-5`, `1e16`). -/

namespace LoxLex

/-- The number `coefficient * 10 ^ exponent`. -/
structure Decimal where
  coefficient : Nat
  exponent : Int
  deriving DecidableEq, Repr

namespace Decimal

/-- The same number without zeros at the end of its coefficient. -/
def trimmed (d : Decimal) : Decimal :=
  if d.coefficient = 0 ∨ d.coefficient % 10 ≠ 0 then d
  else trimmed ⟨d.coefficient / 10, d.exponent + 1⟩
termination_by d.coefficient
decreasing_by exact Nat.div_lt_self (by omega) (by decide)

/-- The digits of the coefficient. -/
def digits (d : Decimal) : Text := decimalText d.coefficient

/-- The number of digits that stand before the point when no exponent is written; if negative, the
number of zeros right behind the point. -/
def point (d : Decimal) : Int := d.digits.length + d.exponent

/-! ### Written forms -/

/-- The plain form, always with a fractional part. -/
def plain (d : Decimal) : Text :=
  if 0 ≤ d.exponent then
    d.digits ++ List.replicate d.exponent.toNat '0' ++ ['.', '0']
  else if 0 < d.point then
    d.digits.take d.point.toNat ++ '.' :: d.digits.drop d.point.toNat
  else
    ['0', '.'] ++ List.replicate (-d.point).toNat '0' ++ d.digits

/-- A whole number in decimal digits, after a minus sign if it is negative. -/
def wholeText (n : Int) : Text :=
  if n < 0 then '-' :: decimalText n.natAbs else decimalText n.natAbs

/-- The exponent form: one digit, the others behind a point, and the power of ten. -/
def withExponent (d : Decimal) : Text :=
  let fraction := d.digits.drop 1
  d.digits.take 1 ++ (if fraction = [] then [] else '.' :: fraction)
    ++ 'e' :: wholeText (d.point - 1)

end Decimal

end LoxLex
