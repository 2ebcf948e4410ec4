import LoxLex.Binary64.Shortest
import LoxLex.Proofs.Binary64.Nearest
import LoxLex.Proofs.Decimal

/-! # The shortest decimal reads back

The ends of the interval that `Binary64.covers` asks for are the midpoints on either side of a
number, so what it covers is what rounds to the number (`covers_iff_roundsTo`). Every point that the
search through the grids ends with is covered, and the finest grid always has one, as its points are
no further apart than a quarter of the last place (`exists_onGrid_zero`). So the shortest decimal of
a number rounds to it (`isNearest_shortest`). -/

namespace LoxLex.Binary64

variable {x : Binary64} {m p place : Nat}

/-! ### The ends of the interval -/

/-- One is `10 ^ 324` steps of the finest grid. -/
theorem cast_finestOfOne : (finestOfOne : ℚ) = 10 ^ 324 := by
  unfold finestOfOne
  -- The power is not to be evaluated.
  generalize 324 = k
  exact Nat.cast_pow 10 k

/-- `0 < finestOfOne`, as rational numbers. -/
theorem finestOfOne_pos : (0 : ℚ) < finestOfOne := by
  rw [cast_finestOfOne]
  positivity

/-- A number with a nonzero code has a nonzero significand. -/
theorem significand_pos (h : x.code ≠ 0) : 0 < x.significand := by
  rw [significand, leadingPlace]
  split <;> omega

/-- The interval is narrow below at the multiples of `leadingPlace` from `2 * leadingPlace` on:
these are codes of powers of two. -/
theorem isNarrowBelow_iff :
    x.isNarrowBelow = true ↔ x.code % leadingPlace = 0 ∧ 2 * leadingPlace ≤ x.code := by
  rw [isNarrowBelow, Bool.and_eq_true, beq_iff_eq, decide_eq_true_iff, significand, scale,
    leadingPlace]
  split <;> omega

/-- The gap below a number is that above it, or half of that at a power of two. -/
theorem two_mul_gap_pred (h : x.code = m + 1) :
    2 * gap m = (if x.isNarrowBelow then 1 else 2) * 2 ^ x.scale := by
  by_cases hnarrow : x.isNarrowBelow = true
  · have hscale : x.scale = m / leadingPlace - 1 + 1 := by
      rw [isNarrowBelow_iff, leadingPlace] at hnarrow
      rw [scale, leadingPlace]
      omega
    rw [if_pos hnarrow, hscale, gap, pow_succ]
    ring
  · have hscale : x.scale = m / leadingPlace - 1 := by
      rw [isNarrowBelow_iff, leadingPlace] at hnarrow
      rw [scale, leadingPlace]
      omega
    rw [if_neg hnarrow, hscale, gap]

/-- The upper end of the interval is the midpoint behind the code. -/
theorem cast_high (x : Binary64) : (x.high : ℚ) = midpoint x.code * (4 * finestOfOne) := by
  have hunits : unitsOfCode x.code = x.significand * 2 ^ x.scale := rfl
  have hgap : gap x.code = 2 ^ x.scale := rfl
  rw [high, quarter, midpoint, hunits, hgap, Nat.pow_eq]
  push_cast
  ring

/-- The lower end of the interval is the midpoint in front of the code, where there is one. -/
theorem cast_low (h : x.code = m + 1) : (x.low : ℚ) = midpoint m * (4 * finestOfOne) := by
  have hunits : unitsOfCode m + gap m = x.significand * 2 ^ x.scale := by
    rw [← unitsOfCode_succ, ← h]
    rfl
  have hgap := two_mul_gap_pred h
  have hpos := significand_pos (x := x) (by omega)
  have hle : (if x.isNarrowBelow then 1 else 2) ≤ 4 * x.significand := by
    split <;> omega
  rw [low, quarter, midpoint, Nat.pow_eq, Nat.cast_mul, Nat.cast_sub hle]
  generalize (if x.isNarrowBelow then 1 else 2) = part at *
  have hunitsQ : (unitsOfCode m : ℚ) = x.significand * 2 ^ x.scale - gap m := by
    rw [eq_sub_iff_add_eq]
    exact_mod_cast hunits
  have hgapQ : (gap m : ℚ) = part * 2 ^ x.scale / 2 := by
    rw [eq_div_iff two_ne_zero, mul_comm]
    exact_mod_cast hgap
  rw [hunitsQ, hgapQ]
  push_cast
  ring

/-- **What is covered** is what rounds to the number. -/
theorem covers_iff_roundsTo (h : x.code ≠ 0) :
    x.covers place = true ↔ RoundsTo (place / (4 * finestOfOne)) x.code := by
  obtain ⟨m, hm⟩ := Nat.exists_eq_add_one_of_ne_zero h
  have hpos : (0 : ℚ) < 4 * finestOfOne := mul_pos (by norm_num) finestOfOne_pos
  -- All places as fractions of one unit.
  generalize hr : (place / (4 * finestOfOne) : ℚ) = r
  have hplace : (place : ℚ) = r * (4 * finestOfOne) := by rw [← hr, div_mul_cancel₀ _ hpos.ne']
  have hlow_le : x.low ≤ place ↔ midpoint m ≤ r := by
    rw [← @Nat.cast_le ℚ, cast_low hm, hplace, mul_le_mul_iff_left₀ hpos]
  have hlow_lt : x.low < place ↔ midpoint m < r := by
    rw [← @Nat.cast_lt ℚ, cast_low hm, hplace, mul_lt_mul_iff_left₀ hpos]
  have hhigh_le : place ≤ x.high ↔ r ≤ midpoint x.code := by
    rw [← @Nat.cast_le ℚ, cast_high, hplace, mul_le_mul_iff_left₀ hpos]
  have hhigh_lt : place < x.high ↔ r < midpoint x.code := by
    rw [← @Nat.cast_lt ℚ, cast_high, hplace, mul_lt_mul_iff_left₀ hpos]
  rw [covers, significand_mod_two]
  split
  next heven =>
    rw [Bool.and_eq_true, decide_eq_true_iff, decide_eq_true_iff, hlow_le, hhigh_le]
    constructor
    · rintro ⟨hlower, hupper⟩
      refine ⟨fun k hk => ?_, hupper, fun _ _ _ => heven, fun _ => heven⟩
      obtain rfl : m = k := by omega
      exact hlower
    · intro hrounds
      exact ⟨hrounds.lower m hm, hrounds.upper⟩
  next hodd =>
    rw [Bool.and_eq_true, decide_eq_true_iff, decide_eq_true_iff, hlow_lt, hhigh_lt]
    constructor
    · rintro ⟨hlower, hupper⟩
      refine ⟨fun k hk => ?_, hupper.le, fun k hk htie => ?_, fun htie => absurd htie hupper.ne⟩
      all_goals obtain rfl : m = k := by omega
      · exact hlower.le
      · exact absurd htie hlower.ne
    · intro hrounds
      have hlower : midpoint m ≠ r := fun htie => hodd (hrounds.lower_even m hm htie)
      have hupper : r ≠ midpoint x.code := fun htie => hodd (hrounds.upper_even htie)
      exact ⟨lt_of_le_of_ne (hrounds.lower m hm) hlower, lt_of_le_of_ne hrounds.upper hupper⟩

/-! ### The search -/

/-- The point of a grid that is found is covered: `x.covers (n * gridStep p)`. -/
theorem covers_of_onGrid_eq_some {n : Nat} (h : x.onGrid p = some n) :
    x.covers (n * gridStep p) = true := by
  unfold onGrid at h
  simp only at h
  split at h
  next hdown =>
    split at h
    next hup =>
      obtain rfl := Option.some.inj h
      exact hup.1
    next =>
      obtain rfl := Option.some.inj h
      exact hdown
  next =>
    split at h
    next hup =>
      obtain rfl := Option.some.inj h
      exact hup
    next => contradiction

/-- The points of the finest grid are no further apart than a quarter of the last place. -/
theorem gridStep_zero_le_quarter (x : Binary64) : gridStep 0 ≤ x.quarter := by
  have hstep : gridStep 0 ≤ finestOfOne := by decide +kernel
  exact hstep.trans (Nat.le_mul_of_pos_left _ (Nat.two_pow_pos _))

/-- The lower end is a quarter of the last place below the number, or further:
`x.low + x.quarter ≤ x.centre`. -/
theorem low_add_quarter_le (h : x.code ≠ 0) : x.low + x.quarter ≤ x.centre := by
  have hpos := significand_pos h
  have hpart : (4 * x.significand - if x.isNarrowBelow then 1 else 2) + 1 ≤ 4 * x.significand := by
    split <;> omega
  calc x.low + x.quarter
      = ((4 * x.significand - if x.isNarrowBelow then 1 else 2) + 1) * x.quarter := by
        rw [low, Nat.add_mul, Nat.one_mul]
    _ ≤ x.centre := Nat.mul_le_mul_right x.quarter hpart

/-- The upper end is above the number: `x.centre < x.high`. -/
theorem centre_lt_high (x : Binary64) : x.centre < x.high := by
  have hquarter : 0 < x.quarter := lt_of_lt_of_le (by decide +kernel) (gridStep_zero_le_quarter x)
  exact Nat.mul_lt_mul_of_pos_right (by omega) hquarter

/-- The finest grid has a point in every interval: the one next below the number. -/
theorem exists_onGrid_zero (h : x.code ≠ 0) : ∃ n, x.onGrid 0 = some n := by
  have hstep : 0 < gridStep 0 := by decide +kernel
  have hbelow : x.centre / gridStep 0 * gridStep 0 ≤ x.centre := Nat.div_mul_le_self ..
  have habove : x.centre < x.centre / gridStep 0 * gridStep 0 + gridStep 0 :=
    Nat.lt_div_mul_add hstep
  have hlow := low_add_quarter_le h
  have hhigh := centre_lt_high x
  have hquarter := gridStep_zero_le_quarter x
  have hcovers : x.covers (x.centre / gridStep 0 * gridStep 0) = true := by
    rw [covers]
    split <;> rw [Bool.and_eq_true, decide_eq_true_iff, decide_eq_true_iff] <;> omega
  simp only [onGrid, hcovers, if_true]
  split
  · exact ⟨_, rfl⟩
  · exact ⟨_, rfl⟩

/-- **The search** ends on the first grid, from the coarsest downwards, that has a point. -/
theorem exists_onGrid_shortestFrom (h : x.code ≠ 0) (p : Nat) :
    ∃ n q : Nat, x.shortestFrom p = ⟨n, q - 324⟩ ∧ q ≤ p ∧ x.onGrid q = some n ∧
      ∀ r, q < r → r ≤ p → x.onGrid r = none := by
  induction p with
  | zero =>
    obtain ⟨n, hn⟩ := exists_onGrid_zero h
    refine ⟨n, 0, ?_, le_rfl, hn, fun r hlt hle => by omega⟩
    rw [shortestFrom, hn]
    rfl
  | succ p ih =>
    rw [shortestFrom]
    split
    next n hn => exact ⟨n, p + 1, rfl, le_rfl, hn, fun r hlt hle => by omega⟩
    next hnone =>
      obtain ⟨n, q, hfound, hq, hn, hcoarser⟩ := ih
      refine ⟨n, q, hfound, Nat.le_succ_of_le hq, hn, fun r hlt hle => ?_⟩
      rcases Nat.le_succ_iff.1 hle with hbelow | rfl
      · exact hcoarser r hlt hbelow
      · exact hnone

/-! ### The decimal that is found -/

/-- A point of a grid in units is the decimal that it stands for. -/
theorem place_div_eq (n q : Nat) :
    ((n * gridStep q : Nat) / (4 * finestOfOne) : ℚ) =
      Decimal.value ⟨n, q - 324⟩ * unitsOfOne := by
  rw [gridStep, Nat.pow_eq, Decimal.value, zpow_sub₀ (by norm_num), zpow_natCast,
    show ((324 : Int) = (324 : Nat)) from rfl, zpow_natCast, ← cast_finestOfOne]
  have hpos := finestOfOne_pos.ne'
  generalize unitsOfOne = u, finestOfOne = f at *
  push_cast
  field_simp

/-- **The shortest decimal rounds to its number.** -/
theorem roundsTo_shortest (h : x.code ≠ 0) :
    RoundsTo (x.shortest.value * unitsOfOne) x.code := by
  obtain ⟨n, q, hfound, -, hn, -⟩ :=
    exists_onGrid_shortestFrom h (floorLog 10 (x.units * finestOfOne / unitsOfOne)).1
  rw [shortest, Decimal.value_trimmed, hfound, ← place_div_eq]
  exact (covers_iff_roundsTo h).1 (covers_of_onGrid_eq_some hn)

/-- A finite number without a sign, other than zero, is the nearest to its shortest decimal. -/
theorem isNearest_shortest (hsign : x.isNegative = false) (hfinite : x.IsFinite)
    (h : x.code ≠ 0) : x.IsNearest x.shortest.value := by
  rw [isNearest_iff_of_roundsTo x.shortest.value_nonneg (roundsTo_shortest h),
    Nat.min_eq_left hfinite.le, ofCode_code hsign]

end LoxLex.Binary64
