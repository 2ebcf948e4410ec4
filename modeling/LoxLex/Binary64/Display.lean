import LoxLex.Binary64.Shortest

/-! # The displayed form of a binary64 number

Numbers are shown by their shortest decimal: in the plain form from `10^(-4)` up to but not with
`10^16`, in exponent form outside that range. -/

namespace LoxLex.Binary64

/-- Whether the plain form is used: for zero, and from `10^(-4)` up to `10^16`. -/
def showsPlain (x : Binary64) : Bool :=
  x.isZero || unitsOfOne ≤ x.units * 10000 && x.units < 10000000000000000 * unitsOfOne

/-- The magnitude of a number other than a NaN, as shown. -/
def displayMagnitude (x : Binary64) : Text :=
  if x.isInfinite then "inf".toList
  else if x.isZero then "0.0".toList
  else if x.showsPlain then x.shortest.plain
  else x.shortest.withExponent

/-- A number as shown: the sign of a zero is kept, and a NaN has none. -/
def display (x : Binary64) : Text :=
  if x.isNaN then "NaN".toList
  else if x.isNegative then '-' :: x.displayMagnitude
  else x.displayMagnitude

end LoxLex.Binary64
