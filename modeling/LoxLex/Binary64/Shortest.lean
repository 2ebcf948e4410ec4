import LoxLex.Binary64.Basic
import LoxLex.Decimal

/-! # The shortest decimal of a binary64 number

The decimals that round to a finite number fill an interval around it. `Binary64.shortest` takes the
coarsest grid of multiples of a power of ten that has a point in the interval, and of its points
there the one nearest to the number. If a grid has a point in the interval, so has one of the two
neighbours of the number on that grid; so only these two are tried. The finest grid needed is
`10^(-324)`, whose points are closer together than any interval is wide. -/

namespace LoxLex

/-- The greatest `e` with `b ^ e ≤ n`, and `n / b ^ e`; found by squaring the base. -/
def floorLog (b n : Nat) : Nat × Nat :=
  if b < 2 ∨ n < b then (0, n)
  else
    let (e, top) := floorLog (b * b) n
    if top < b then (2 * e, top) else (2 * e + 1, top / b)
termination_by n + 1 - b
decreasing_by
  have : b * 2 ≤ b * b := Nat.mul_le_mul_left b (by omega)
  omega

namespace Binary64

/-! ### The interval of a number

Lengths are in quarters of a unit, times the number of steps of the finest grid in one, so that the
ends of every interval and the points of every grid are whole numbers. -/

/-- How many steps of the finest grid make one. -/
def finestOfOne : Nat := Nat.pow 10 324

/-- How long a quarter of the last place of the significand is. -/
def quarter (x : Binary64) : Nat := Nat.pow 2 x.scale * finestOfOne

/-- The place of the number. -/
def centre (x : Binary64) : Nat := 4 * x.significand * x.quarter

/-- Whether the number below is closer than the one above, as it is at a power of two that does not
begin the numbers of the least scale. -/
def isNarrowBelow (x : Binary64) : Bool := x.significand == leadingPlace && 0 < x.scale

/-- The lower end: halfway to the number below. -/
def low (x : Binary64) : Nat :=
  (4 * x.significand - if x.isNarrowBelow then 1 else 2) * x.quarter

/-- The upper end: halfway to the number above. -/
def high (x : Binary64) : Nat := (4 * x.significand + 2) * x.quarter

/-- Whether what stands at a place rounds to the number. The ends do if the significand is even. -/
def covers (x : Binary64) (place : Nat) : Bool :=
  if x.significand % 2 = 0 then x.low ≤ place && place ≤ x.high
  else x.low < place && place < x.high

/-! ### The search through the grids

Grids are counted from the finest one: grid `p` is that of the multiples of `10^(p - 324)`. -/

/-- The distance between two points of a grid. -/
def gridStep (p : Nat) : Nat := Nat.pow 10 p * (4 * unitsOfOne)

/-- The point of a grid that is in the interval and nearest to the number, counted in steps of the
grid, if any is in the interval; halfway between two points it is the upper one. -/
def onGrid (x : Binary64) (p : Nat) : Option Nat :=
  let step := gridStep p
  let down := x.centre / step
  let up := down + 1
  if x.covers (down * step) then
    if x.covers (up * step) ∧ step ≤ 2 * (x.centre % step) then some up else some down
  else if x.covers (up * step) then some up
  else none

/-- The search from a grid downwards through the finer ones. -/
def shortestFrom (x : Binary64) : Nat → Decimal
  | 0 => ⟨(x.onGrid 0).getD 0, -324⟩
  | p + 1 =>
    match x.onGrid (p + 1) with
    | some n => ⟨n, (p + 1 : Nat) - 324⟩
    | none => x.shortestFrom p

/-- The decimal with the fewest digits that rounds to a finite number other than zero, and the
nearest of these to it. -/
def shortest (x : Binary64) : Decimal :=
  let coarsest := (floorLog 10 (x.units * finestOfOne / unitsOfOne)).1
  (x.shortestFrom coarsest).trimmed

end Binary64

end LoxLex
