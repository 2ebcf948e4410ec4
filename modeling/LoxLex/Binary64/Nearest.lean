import LoxLex.Binary64.Basic

/-! # Rounding to the nearest binary64 number

`Binary64.nearest` rounds the quotient of two natural numbers, exactly given, to the nearest
binary64 number, a tie going to the even significand. The quotient is brought to 53 bits (fewer
near zero) by one rounded division. Codes count the numbers upwards, so a significand that rounds
up to the next power of two needs no case of its own, and all that is too large is cut off at the
code of the infinity. -/

namespace LoxLex

/-- A quotient rounded to the nearest natural number, a half to the even one. -/
def roundHalfEven (num den : Nat) : Nat :=
  let down := num / den
  let left := num % den
  if 2 * left < den then down
  else if den < 2 * left then down + 1
  else down + down % 2

namespace Binary64

/-- The number nearest to `num / den`; a tie goes to the even significand. -/
def nearest (num den : Nat) : Binary64 :=
  let scaled := num * unitsOfOne
  let shift := (scaled / den).log2 - 52
  let kept := roundHalfEven scaled (den * Nat.pow 2 shift)
  ofCode (min (shift * leadingPlace + kept) infinityCode)

end Binary64

end LoxLex
