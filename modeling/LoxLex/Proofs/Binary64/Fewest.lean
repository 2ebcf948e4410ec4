import LoxLex.Proofs.Binary64.Shortest
import LoxLex.Proofs.Decimal.Digits

/-! # The shortest decimal has the fewest digits

A decimal of few digits that is not far below a number is a point of a coarse grid, and if a grid
has a point that rounds to a number, so has one of the two neighbours of the number on it
(`not_covers_of_onGrid_eq_none`). So where the search ends, no grid further up has a point, and
nothing of fewer digits rounds to the number (`length_digits_shortest_le`). The point that is found
is the nearest of its grid, and with it of all that have no more digits (`distance_shortest_le`). -/

namespace LoxLex

/-! ### How large a number is -/

/-- What squaring the base finds: the quotient is between one and the base. -/
theorem floorLog_spec {b n : Nat} (hb : 2 ≤ b) (hn : 0 < n) :
    (floorLog b n).2 = n / b ^ (floorLog b n).1 ∧ 0 < (floorLog b n).2 ∧ (floorLog b n).2 < b := by
  induction b using floorLog.induct n with
  | case1 b hstop =>
    rw [floorLog, if_pos hstop, pow_zero, Nat.div_one]
    exact ⟨rfl, hn, by omega⟩
  | case2 b hgo e top heq hlt ih =>
    obtain ⟨htop, hpos, -⟩ := ih (Nat.le_trans hb (Nat.le_mul_self b))
    simp only [heq] at htop hpos
    rw [floorLog, if_neg hgo, heq]
    simp only [if_pos hlt]
    exact ⟨by rw [htop, pow_mul, pow_two], hpos, hlt⟩
  | case3 b hgo e top heq hge ih =>
    obtain ⟨htop, hpos, hsquare⟩ := ih (Nat.le_trans hb (Nat.le_mul_self b))
    simp only [heq] at htop hpos hsquare
    rw [floorLog, if_neg hgo, heq]
    simp only [if_neg hge]
    refine ⟨?_, Nat.div_pos (Nat.le_of_not_lt hge) (by omega), ?_⟩
    · rw [htop, pow_succ, pow_mul, pow_two, Nat.div_div_eq_div_mul]
    · exact (Nat.div_lt_iff_lt_mul (by omega)).2 hsquare

/-- Squaring the base finds the whole logarithm: `(floorLog b n).1 = Nat.log b n`. -/
theorem floorLog_fst {b n : Nat} (hb : 2 ≤ b) (hn : 0 < n) : (floorLog b n).1 = Nat.log b n := by
  obtain ⟨htop, hpos, hlt⟩ := floorLog_spec hb hn
  rw [htop] at hpos hlt
  have hpow : 0 < b ^ (floorLog b n).1 := Nat.pow_pos (by omega)
  refine (Nat.log_eq_of_pow_le_of_lt_pow (Nat.div_pos_iff.1 hpos).2 ?_).symm
  rw [pow_succ, Nat.mul_comm]
  exact (Nat.div_lt_iff_lt_mul hpow).1 hlt

namespace Binary64

variable {x : Binary64} {j m n p : Nat} {r : ℚ}

/-- The coarsest grid that is tried: the last one whose first point behind zero is not above the
number. -/
def coarsest (x : Binary64) : Nat := Nat.log 10 (x.units * finestOfOne / unitsOfOne)

/-- The place of a number is four times its units in steps of the finest grid:
`x.centre = 4 * (x.units * finestOfOne)`. -/
theorem centre_eq (x : Binary64) : x.centre = 4 * (x.units * finestOfOne) := by
  rw [centre, quarter, units]
  ring

/-- A number with a nonzero code is at least one step of the finest grid. -/
theorem units_mul_div_pos (h : x.code ≠ 0) : 0 < x.units * finestOfOne / unitsOfOne := by
  have hunits : 0 < x.units := Nat.mul_pos (significand_pos h) (Nat.two_pow_pos _)
  have hfinest : unitsOfOne ≤ finestOfOne := by decide +kernel
  have hone : 0 < unitsOfOne := by decide +kernel
  exact Nat.div_pos (hfinest.trans (Nat.le_mul_of_pos_left _ hunits)) hone

/-- The search for the shortest decimal begins on the coarsest grid:
`x.shortest = (x.shortestFrom x.coarsest).trimmed`. -/
theorem shortest_eq (h : x.code ≠ 0) : x.shortest = (x.shortestFrom x.coarsest).trimmed := by
  rw [shortest, floorLog_fst (by decide) (units_mul_div_pos h), coarsest]

/-- The first point of the coarsest grid is not above the number:
`gridStep x.coarsest ≤ x.centre`. -/
theorem gridStep_coarsest_le (h : x.code ≠ 0) : gridStep x.coarsest ≤ x.centre := by
  have hone : 0 < unitsOfOne := by decide +kernel
  have hpow : 10 ^ x.coarsest ≤ x.units * finestOfOne / unitsOfOne :=
    Nat.pow_log_le_self 10 (units_mul_div_pos h).ne'
  rw [centre_eq, gridStep, Nat.pow_eq, Nat.mul_left_comm (10 ^ _)]
  exact Nat.mul_le_mul_left 4 ((Nat.le_div_iff_mul_le hone).1 hpow)

/-- The first point of the grid above the coarsest is above the number:
`x.centre < gridStep (x.coarsest + 1)`. -/
theorem centre_lt_gridStep_coarsest (x : Binary64) : x.centre < gridStep (x.coarsest + 1) := by
  have hone : 0 < unitsOfOne := by decide +kernel
  have hpow : x.units * finestOfOne / unitsOfOne < 10 ^ (x.coarsest + 1) :=
    Nat.lt_pow_succ_log_self (by decide) _
  rw [centre_eq, gridStep, Nat.pow_eq, Nat.mul_left_comm (10 ^ _)]
  exact Nat.mul_lt_mul_of_pos_left ((Nat.div_lt_iff_lt_mul hone).1 hpow) (by decide)

/-! ### The points of a grid -/

/-- The points of a grid are apart: `0 < gridStep p`. -/
theorem gridStep_pos (p : Nat) : 0 < gridStep p :=
  Nat.mul_pos (Nat.pow_pos (by decide)) (by decide +kernel)

/-- What is covered has no gaps. -/
theorem covers_of_between {a b place : Nat} (ha : x.covers a = true) (hb : x.covers b = true)
    (hle : a ≤ place) (hge : place ≤ b) : x.covers place = true := by
  unfold covers at *
  split at ha <;>
    simp only [*, if_true, if_false, Bool.and_eq_true, decide_eq_true_iff] at * <;>
    omega

/-- A number with a nonzero code covers its own place. -/
theorem covers_centre (h : x.code ≠ 0) : x.covers x.centre = true := by
  have hquarter : 0 < x.quarter := lt_of_lt_of_le (by decide +kernel) (gridStep_zero_le_quarter x)
  have hlow := low_add_quarter_le h
  have hhigh := centre_lt_high x
  rw [covers]
  split <;> rw [Bool.and_eq_true, decide_eq_true_iff, decide_eq_true_iff] <;> omega

/-- What `onGrid` finds, and what it has found of the other neighbour. -/
theorem onGrid_cases (h : x.onGrid p = some n) :
    (n = x.centre / gridStep p ∧ (x.covers ((n + 1) * gridStep p) = true →
        2 * (x.centre % gridStep p) < gridStep p)) ∨
      n = x.centre / gridStep p + 1 ∧ (x.covers (x.centre / gridStep p * gridStep p) = true →
        gridStep p ≤ 2 * (x.centre % gridStep p)) := by
  unfold onGrid at h
  simp only at h
  split at h
  next hdown =>
    split at h
    next hup =>
      obtain rfl := Option.some.inj h
      exact .inr ⟨rfl, fun _ => hup.2⟩
    next hup =>
      obtain rfl := Option.some.inj h
      exact .inl ⟨rfl, fun hcovers => Nat.lt_of_not_le fun hle => hup ⟨hcovers, hle⟩⟩
  next hdown =>
    split at h
    next =>
      obtain rfl := Option.some.inj h
      exact .inr ⟨rfl, fun hcovers => absurd hcovers hdown⟩
    next => contradiction

/-- If a point of a grid is covered, so is the neighbour of the number on the same side. -/
theorem covers_neighbour (h : x.code ≠ 0) (hm : x.covers (m * gridStep p) = true) :
    (m ≤ x.centre / gridStep p ∧ x.covers (x.centre / gridStep p * gridStep p) = true) ∨
      x.centre / gridStep p + 1 ≤ m ∧
        x.covers ((x.centre / gridStep p + 1) * gridStep p) = true := by
  have hcentre := covers_centre h
  rcases Nat.lt_or_ge (x.centre / gridStep p) m with hlt | hle
  · have habove : x.centre < (x.centre / gridStep p + 1) * gridStep p := by
      rw [Nat.mul_comm]
      exact Nat.lt_mul_div_succ x.centre (gridStep_pos p)
    exact .inr ⟨hlt, covers_of_between hcentre hm habove.le (Nat.mul_le_mul_right _ hlt)⟩
  · have hbelow : x.centre / gridStep p * gridStep p ≤ x.centre := Nat.div_mul_le_self ..
    exact .inl ⟨hle, covers_of_between hm hcentre (Nat.mul_le_mul_right _ hle) hbelow⟩

/-- **Grids without a point.** If neither neighbour of the number is covered, no point is. -/
theorem not_covers_of_onGrid_eq_none (h : x.code ≠ 0) (hnone : x.onGrid p = none) (m : Nat) :
    ¬ x.covers (m * gridStep p) = true := by
  intro hm
  rcases covers_neighbour h hm with ⟨-, hdown⟩ | ⟨-, hup⟩
  · simp only [onGrid, if_pos hdown] at hnone
    split at hnone <;> cases hnone
  · simp only [onGrid, if_pos hup] at hnone
    split at hnone
    · split at hnone <;> cases hnone
    · cases hnone

/-- **The nearest point.** No point of the grid that is covered is closer than the one found. -/
theorem natAbs_sub_le_of_onGrid_eq_some (h : x.code ≠ 0) (hn : x.onGrid p = some n)
    (hm : x.covers (m * gridStep p) = true) :
    ((n * gridStep p : Nat) - (x.centre : Int)).natAbs ≤
      ((m * gridStep p : Nat) - (x.centre : Int)).natAbs := by
  have hsum : x.centre / gridStep p * gridStep p + x.centre % gridStep p = x.centre :=
    Nat.div_add_mod' ..
  have hleft : x.centre % gridStep p < gridStep p := Nat.mod_lt _ (gridStep_pos p)
  have hnext : (x.centre / gridStep p + 1) * gridStep p =
      x.centre / gridStep p * gridStep p + gridStep p := Nat.succ_mul ..
  rcases onGrid_cases hn with ⟨rfl, hup⟩ | ⟨rfl, hdown⟩ <;>
    rcases covers_neighbour h hm with ⟨hle, hcovers⟩ | ⟨hle, hcovers⟩ <;>
    have hplace := Nat.mul_le_mul_right (gridStep p) hle <;>
    -- The places are told by the one below and the two distances from it.
    rw [hnext] at * <;>
    generalize x.centre / gridStep p * gridStep p = below at * <;>
    generalize x.centre % gridStep p = left at * <;>
    generalize m * gridStep p = place at * <;>
    generalize gridStep p = step at *
  · omega
  · have hcloser := hup hcovers
    omega
  · have hcloser := hdown hcovers
    omega
  · omega

/-! ### Places and values -/

/-- How many places make one. -/
def placesOfOne : ℚ := 4 * finestOfOne * unitsOfOne

/-- `0 < placesOfOne`. -/
theorem placesOfOne_pos : 0 < placesOfOne :=
  mul_pos (mul_pos (by norm_num) finestOfOne_pos) unitsOfOne_pos

/-- The place of a number is its magnitude in places: `x.centre = |x.value| * placesOfOne`. -/
theorem cast_centre (x : Binary64) : (x.centre : ℚ) = |x.value| * placesOfOne := by
  have hone := unitsOfOne_pos.ne'
  rw [centre_eq, abs_value, placesOfOne]
  generalize unitsOfOne = u, finestOfOne = f at *
  push_cast
  field_simp

/-- The point `n` of the grid `p` is the decimal `⟨n, p - 324⟩` in places. -/
theorem cast_place (n p : Nat) :
    ((n * gridStep p : Nat) : ℚ) = Decimal.value ⟨n, p - 324⟩ * placesOfOne := by
  have hplace := place_div_eq n p
  have hpos : (0 : ℚ) < 4 * finestOfOne := mul_pos (by norm_num) finestOfOne_pos
  rw [div_eq_iff hpos.ne'] at hplace
  rw [hplace, placesOfOne]
  ring

/-- How far a rational number, not below zero, is from the magnitude of a number. -/
def distance (x : Binary64) (r : ℚ) : ℚ := abs (r - |x.value|)

/-- Below a number the smaller one of two is further away. -/
theorem distance_le_of_le {a b : ℚ} (hab : a ≤ b) (hb : b ≤ |x.value|) :
    x.distance b ≤ x.distance a := by
  unfold distance
  generalize |x.value| = magnitude at *
  rw [abs_of_nonpos (by linarith), abs_of_nonpos (by linarith)]
  linarith

/-- Places are as far from that of the number as values are from its magnitude. -/
theorem cast_natAbs_sub (n p : Nat) :
    ((((n * gridStep p : Nat) - (x.centre : Int)).natAbs : Nat) : ℚ) =
      x.distance (Decimal.value ⟨n, p - 324⟩) * placesOfOne := by
  rw [Nat.cast_natAbs, Int.cast_abs, Int.cast_sub, Int.cast_natCast, Int.cast_natCast, cast_place,
    cast_centre, ← sub_mul, abs_mul, abs_of_pos placesOfOne_pos, distance]

/-- A point of a grid is covered by `x` if the decimal that it stands for rounds to the code of
`x`. -/
theorem covers_place_iff (h : x.code ≠ 0) :
    x.covers (n * gridStep p) = true ↔
      RoundsTo (Decimal.value ⟨n, p - 324⟩ * unitsOfOne) x.code := by
  rw [covers_iff_roundsTo h, place_div_eq]

/-- A number rounds to itself. -/
theorem roundsTo_abs_value (x : Binary64) : RoundsTo (|x.value| * unitsOfOne) x.code := by
  rw [abs_value, div_mul_cancel₀ _ unitsOfOne_pos.ne', units_eq]
  exact roundsTo_unitsOfCode x.code

/-! ### Decimals of few digits -/

/-- **Few digits, a coarse grid.** A number of few digits that rounds to `x` is a point of a coarse
grid or, if it is below all the points of that grid but zero, further away than one of them. -/
theorem exists_covers_of_hasDigits (h : x.code ≠ 0) (hr : RoundsTo (r * unitsOfOne) x.code)
    (hnonneg : 0 ≤ r) (hdigits : HasDigits j r) (hp : p ≤ x.coarsest)
    (hj : j + p ≤ x.coarsest + 1) :
    ∃ m, x.covers (m * gridStep p) = true ∧
      x.distance (Decimal.value ⟨m, p - 324⟩) ≤ x.distance r := by
  obtain ⟨d, hlt, hvalue⟩ := hdigits
  rw [abs_of_nonneg hnonneg] at hvalue
  subst hvalue
  by_cases hcoarse : (p : Int) - 324 ≤ d.exponent
  · refine ⟨d.coefficient * 10 ^ (d.exponent - (p - 324)).toNat, ?_⟩
    have hexponent : (p : Int) - 324 + (d.exponent - (p - 324)).toNat = d.exponent := by omega
    rw [covers_place_iff h, Decimal.value_mul_pow, hexponent]
    exact ⟨hr, le_rfl⟩
  · -- The first point of the coarsest grid is between the decimal and the number.
    refine ⟨10 ^ (x.coarsest - p), ?_⟩
    have hexponent : (p : Int) - 324 + (x.coarsest - p : Nat) = x.coarsest - 324 := by omega
    have hfirst : Decimal.value ⟨10 ^ (x.coarsest - p), p - 324⟩ =
        Decimal.value ⟨1, x.coarsest - 324⟩ := by
      rw [← Nat.one_mul (10 ^ (x.coarsest - p)), Decimal.value_mul_pow, hexponent]
    have hbelow : d.value ≤ Decimal.value ⟨1, x.coarsest - 324⟩ := by
      have hcoefficient : (d.coefficient : ℚ) ≤ 10 ^ j := by exact_mod_cast hlt.le
      calc d.value ≤ 10 ^ j * 10 ^ d.exponent :=
            mul_le_mul_of_nonneg_right hcoefficient (zpow_nonneg (by norm_num) _)
        _ = 10 ^ (j + d.exponent) := by rw [zpow_add₀ (by norm_num), zpow_natCast]
        _ ≤ 10 ^ ((x.coarsest : Int) - 324) := zpow_le_zpow_right₀ (by norm_num) (by omega)
        _ = Decimal.value ⟨1, x.coarsest - 324⟩ := by rw [Decimal.value, Nat.cast_one, one_mul]
    have habove : Decimal.value ⟨1, x.coarsest - 324⟩ ≤ |x.value| := by
      rw [← mul_le_mul_iff_left₀ placesOfOne_pos, ← cast_place, ← cast_centre, Nat.one_mul]
      exact_mod_cast gridStep_coarsest_le h
    rw [covers_place_iff h, hfirst]
    constructor
    · refine hr.of_between (roundsTo_abs_value x) ?_ ?_ <;>
        rwa [mul_le_mul_iff_left₀ unitsOfOne_pos]
    · exact distance_le_of_le hbelow habove

/-- What rounds to a nonzero code is not zero. -/
theorem RoundsTo.ne_zero (h : x.code ≠ 0) (hr : RoundsTo (r * unitsOfOne) x.code) : r ≠ 0 := by
  rintro rfl
  have hzero : RoundsTo (unitsOfCode 0) 0 := roundsTo_unitsOfCode 0
  rw [unitsOfCode_zero, Nat.cast_zero] at hzero
  rw [zero_mul] at hr
  exact h (hr.unique hzero)

/-- A point that is found is not behind the first point of the grid above the coarsest. -/
theorem le_pow_of_onGrid_eq_some {k : Nat} (hn : x.onGrid p = some n)
    (hk : x.coarsest + 1 = p + k) : n ≤ 10 ^ k := by
  have hstep : gridStep (x.coarsest + 1) = 10 ^ k * gridStep p := by
    rw [hk, gridStep, gridStep, Nat.pow_eq, Nat.pow_eq, pow_add, Nat.mul_comm (10 ^ p),
      Nat.mul_assoc]
  have hlt : x.centre / gridStep p < 10 ^ k := by
    rw [Nat.div_lt_iff_lt_mul (gridStep_pos p), ← hstep]
    exact centre_lt_gridStep_coarsest x
  rcases onGrid_cases hn with ⟨rfl, -⟩ | ⟨rfl, -⟩
  · exact hlt.le
  · exact hlt

/-- **The search and digits.** There are `k` grids from the one where the search ends to the
coarsest: what is found has no more digits than `k`, nothing that rounds to the number has fewer,
and of what has no more nothing is closer. -/
theorem exists_digits_shortest (h : x.code ≠ 0) :
    ∃ k, HasDigits k x.shortest.value ∧
      ∀ r, 0 ≤ r → RoundsTo (r * unitsOfOne) x.code →
        (∀ j, HasDigits j r → k ≤ j) ∧
          (HasDigits k r → x.distance x.shortest.value ≤ x.distance r) := by
  obtain ⟨n, p, hfound, hp, hn, hcoarser⟩ := exists_onGrid_shortestFrom h x.coarsest
  have hvalue : x.shortest.value = Decimal.value ⟨n, p - 324⟩ := by
    rw [shortest_eq h, Decimal.value_trimmed, hfound]
  rw [hvalue]
  refine ⟨x.coarsest + 1 - p, ?_, fun r hnonneg hr => ⟨fun j hdigits => ?_, fun hdigits => ?_⟩⟩
  · exact hasDigits_of_le (by omega) (le_pow_of_onGrid_eq_some hn (by omega)) _
  · by_contra hlt
    have hj : j ≠ 0 := by
      rintro rfl
      exact RoundsTo.ne_zero h hr hdigits.eq_zero
    -- A number of fewer digits would be a point of the next grid, or have one near.
    obtain ⟨m, hm, -⟩ :=
      exists_covers_of_hasDigits (p := p + 1) h hr hnonneg hdigits (by omega) (by omega)
    have hnone : x.onGrid (p + 1) = none := hcoarser (p + 1) (by omega) (by omega)
    exact not_covers_of_onGrid_eq_none h hnone m hm
  · obtain ⟨m, hm, hcloser⟩ := exists_covers_of_hasDigits h hr hnonneg hdigits hp (by omega)
    refine le_trans ?_ hcloser
    rw [← mul_le_mul_iff_left₀ placesOfOne_pos, ← cast_natAbs_sub, ← cast_natAbs_sub]
    exact_mod_cast natAbs_sub_le_of_onGrid_eq_some h hn hm

/-- The shortest decimal does not end with a zero: `x.shortest.coefficient % 10 ≠ 0`. -/
theorem coefficient_shortest_mod_ten (h : x.code ≠ 0) : x.shortest.coefficient % 10 ≠ 0 := by
  have hvalue : x.shortest.value ≠ 0 := RoundsTo.ne_zero h (roundsTo_shortest h)
  rw [shortest_eq h] at hvalue ⊢
  apply Decimal.coefficient_trimmed_mod_ten
  intro hzero
  rw [Decimal.value_trimmed, Decimal.value, hzero, Nat.cast_zero, zero_mul] at hvalue
  exact hvalue rfl

/-- **The fewest digits.** Nothing that rounds to a number has fewer digits than its shortest
decimal shows. -/
theorem length_digits_shortest_le (h : x.code ≠ 0) (hnonneg : 0 ≤ r)
    (hr : RoundsTo (r * unitsOfOne) x.code) (hdigits : HasDigits j r) :
    x.shortest.digits.length ≤ j := by
  obtain ⟨k, hk, hall⟩ := exists_digits_shortest h
  have hlength := (Decimal.hasDigits_value_iff (coefficient_shortest_mod_ten h)).1 hk
  exact hlength.trans ((hall r hnonneg hr).1 j hdigits)

/-- **The nearest of them.** Nothing that rounds to a number and has no more digits than its
shortest decimal shows is closer to the number. -/
theorem distance_shortest_le (h : x.code ≠ 0) (hnonneg : 0 ≤ r)
    (hr : RoundsTo (r * unitsOfOne) x.code) (hdigits : HasDigits x.shortest.digits.length r) :
    x.distance x.shortest.value ≤ x.distance r := by
  obtain ⟨k, hk, hall⟩ := exists_digits_shortest h
  have hlength := (Decimal.hasDigits_value_iff (coefficient_shortest_mod_ten h)).1 hk
  exact (hall r hnonneg hr).2 (hdigits.mono hlength)

end Binary64

end LoxLex
