import StepScript.Proofs.Number.Rounding

/-! The shortest decimal lies in the interval of its number.

Seventeen digits always reach into the interval: on that grid the nearer neighbour of
the number is less than half a place away.
-/

set_option autoImplicit false

namespace StepScript.Number

/-! ## Decimal exponents -/

theorem pow_le_of_length {n : Nat} (some : 0 < n) : 10 ^ ((Nat.toDigits 10 n).length - 1) ≤ n := by
  by_cases single : (Nat.toDigits 10 n).length - 1 = 0
  · rw [single]
    exact some
  · have short := mt (Nat.length_toDigits_le_iff (n := n) (b := 10) (by decide)
      (Nat.pos_of_ne_zero single)).mpr (by omega)
    exact Nat.not_lt.mp short

theorem lt_pow_length (n : Nat) : n < 10 ^ (Nat.toDigits 10 n).length :=
  (Nat.length_toDigits_le_iff (by decide) Nat.length_toDigits_pos).mp (Nat.le_refl _)

theorem pow_decimalExponent_le {num den : Nat} (someNum : 0 < num) (someDen : 0 < den) :
    (10 : ℚ) ^ decimalExponent num den ≤ num / den := by
  have positive : (0 : ℚ) < den := by exact_mod_cast someDen
  unfold decimalExponent
  split
  · next large =>
    have quotient : 0 < num / den := Nat.div_pos large someDen
    have digits := pow_le_of_length quotient
    have length := Nat.length_toDigits_pos (b := 10) (n := num / den)
    rw [show ((Nat.toDigits 10 (num / den)).length : Int) - 1 =
      ((Nat.toDigits 10 (num / den)).length - 1 : Nat) by omega, zpow_natCast]
    calc (10 : ℚ) ^ ((Nat.toDigits 10 (num / den)).length - 1) ≤ (num / den : Nat) := by
          exact_mod_cast digits
      _ ≤ num / den := Nat.cast_div_le
  · next small =>
    have length := Nat.length_toDigits_pos (b := 10) (n := den / num)
    simp only
    generalize isPlaces : (Nat.toDigits 10 (den / num)).length = places at *
    -- The inverse has `places` digits, so the power is `-places`, or one more at most.
    have general {k : Nat} (enough : den ≤ num * 10 ^ k) : (10 : ℚ) ^ (-(k : Int)) ≤ num / den := by
      rw [zpow_neg, zpow_natCast, le_div_iff₀ positive, inv_mul_le_iff₀ (by positivity), mul_comm]
      exact_mod_cast enough
    split
    · next enough =>
      rw [show (1 : Int) - places = -((places - 1 : Nat) : Int) by omega]
      exact general enough
    · apply general
      have less := lt_pow_length (den / num)
      rw [isPlaces] at less
      have next := Nat.lt_mul_div_succ den someNum
      calc den ≤ num * (den / num + 1) := next.le
        _ ≤ num * 10 ^ places := Nat.mul_le_mul_left num less

/-! ## Grid points -/

theorem ratio_mul (digits base : Nat) (exponent : Int) :
    ratio digits base exponent =
      (digits * (ratio 1 base exponent).1, (ratio 1 base exponent).2) := by
  simp [ratio]

theorem contains_of_lt (i : Interval) {num den : Nat} (some : 0 < den)
    (low : (i.low * 2 ^ i.exponent : ℚ) < num / den)
    (high : (num / den : ℚ) < i.high * 2 ^ i.exponent) : i.contains num den = true := by
  rw [contains_iff i some]
  cases i.closed with
  | false => exact ⟨low, high⟩
  | true => exact ⟨low.le, high.le⟩

def Interval.Holds (i : Interval) (decimal : Decimal) : Prop :=
  i.contains (ratio decimal.digits 10 decimal.exponent).1
    (ratio decimal.digits 10 decimal.exponent).2 = true

def Interval.below (i : Interval) (exponent : Int) : Nat :=
  (ratio i.value 2 i.exponent).1 * (ratio 1 10 exponent).2 /
    ((ratio i.value 2 i.exponent).2 * (ratio 1 10 exponent).1)

theorem holds_of_gridPoint? {i : Interval} {exponent : Int} {digits : Nat}
    (found : i.gridPoint? exponent = some digits) :
    i.Holds ⟨digits, exponent⟩ ∧ i.below exponent ≤ digits := by
  unfold Interval.Holds
  rw [ratio_mul]
  unfold Interval.gridPoint? at found
  simp only at found
  change (if _ then if _ then some (i.below exponent + 1) else some (i.below exponent)
    else if _ then some (i.below exponent) else if _ then some (i.below exponent + 1) else none) =
      some digits at found
  split at found
  · next both =>
    rw [Bool.and_eq_true] at both
    split at found
    · cases found
      exact ⟨both.2, Nat.le_succ _⟩
    · cases found
      exact ⟨both.1, Nat.le_refl _⟩
  · split at found
    · next lower =>
      cases found
      exact ⟨lower, Nat.le_refl _⟩
    · split at found
      · next upper =>
        cases found
        exact ⟨upper, Nat.le_succ _⟩
      · cases found

theorem exists_gridPoint? {i : Interval} {exponent : Int}
    (hit : i.Holds ⟨i.below exponent, exponent⟩ ∨ i.Holds ⟨i.below exponent + 1, exponent⟩) :
    ∃ digits, i.gridPoint? exponent = some digits := by
  unfold Interval.Holds at hit
  rw [ratio_mul, ratio_mul (i.below exponent + 1)] at hit
  unfold Interval.gridPoint?
  simp only
  split
  · split <;> exact ⟨_, rfl⟩
  · next neither =>
    split
    · exact ⟨_, rfl⟩
    · next noLower =>
      split
      · exact ⟨_, rfl⟩
      · next noUpper =>
        rcases hit with lower | upper
        · exact absurd lower noLower
        · exact absurd upper noUpper

/-- The first grid with a point gives a decimal in the interval. -/
theorem holds_firstPoint {i : Interval} (limit : Nat) {exponent : Int} {k : Nat} (few : k < limit)
    (hit : ∃ digits, i.gridPoint? (exponent - k) = some digits) :
    ∃ j : Nat, i.Holds (i.firstPoint limit exponent) ∧
      i.below (exponent - j) ≤ (i.firstPoint limit exponent).digits := by
  -- By induction on the limit; each grid is finer than the one before.
  induction limit generalizing exponent k with
  | zero => exact absurd few (Nat.not_lt_zero k)
  | succ limit ih =>
    unfold Interval.firstPoint
    cases found : i.gridPoint? exponent with
    | some digits =>
      obtain ⟨holds, atLeast⟩ := holds_of_gridPoint? found
      exact ⟨0, holds, by simpa using atLeast⟩
    | none =>
      cases k with
      | zero =>
        obtain ⟨digits, hit⟩ := hit
        simp [found] at hit
      | succ k =>
        have shifted : exponent - 1 - (k : Int) = exponent - ((k + 1 : Nat) : Int) := by omega
        obtain ⟨j, holds, atLeast⟩ := ih (Nat.lt_of_succ_lt_succ few) (shifted ▸ hit)
        refine ⟨j + 1, holds, ?_⟩
        rwa [show exponent - ((j + 1 : Nat) : Int) = exponent - 1 - (j : Int) by omega]

/-! ## Around a number -/

section

variable {mantissa : Nat} {exponent : Int}

theorem floor_bounds (num : Nat) {den unitNum unitDen : Nat} (someDen : 0 < den)
    (someNum : 0 < unitNum) (someUnit : 0 < unitDen) :
    ((num * unitDen / (den * unitNum) : Nat) * (unitNum / unitDen) : ℚ) ≤ num / den ∧
      (num / den : ℚ) < ((num * unitDen / (den * unitNum) : Nat) + 1) * (unitNum / unitDen) := by
  have low := Nat.div_mul_le_self (num * unitDen) (den * unitNum)
  have high := Nat.lt_mul_div_succ (num * unitDen) (Nat.mul_pos someDen someNum)
  generalize num * unitDen / (den * unitNum) = below at *
  have denPos : (0 : ℚ) < den := by exact_mod_cast someDen
  have unitPos : (0 : ℚ) < unitDen := by exact_mod_cast someUnit
  constructor
  · rw [mul_div_assoc', div_le_div_iff₀ unitPos denPos]
    have scaled : (below * (den * unitNum) : ℚ) ≤ num * unitDen := by exact_mod_cast low
    linarith
  · rw [mul_div_assoc', div_lt_div_iff₀ denPos unitPos]
    have scaled : (num * unitDen : ℚ) < den * unitNum * (below + 1) := by exact_mod_cast high
    linarith

theorem below_bounds (mantissa : Nat) (exponent grid : Int) :
    ((Interval.around mantissa exponent).below grid * 10 ^ grid : ℚ) ≤ mantissa * 2 ^ exponent ∧
      (mantissa * 2 ^ exponent : ℚ) <
        ((Interval.around mantissa exponent).below grid + 1) * 10 ^ grid := by
  have value := ratio_value (4 * mantissa) two_pos (exponent - 2)
  have unit := ratio_value 1 (by decide : 0 < 10) grid
  have unitPos : 0 < (ratio 1 10 grid).1 := by
    simp only [ratio, Nat.one_mul]
    exact Nat.pow_pos (by decide)
  have quarter : (4 * mantissa * 2 ^ (exponent - 2) : ℚ) = mantissa * 2 ^ exponent := by
    rw [two_zpow_sub_two]
    ring
  push_cast at value unit
  rw [quarter] at value
  rw [one_mul] at unit
  rw [← value, ← unit]
  exact floor_bounds _ (ratio_den_pos (4 * mantissa) two_pos (exponent - 2)) unitPos
    (ratio_den_pos 1 (by decide) grid)

theorem holds_of_lt (some : 0 < mantissa) {digits : Nat} {grid : Int}
    (low : (mantissa - lowerPart mantissa exponent : ℚ) * 2 ^ exponent < digits * 10 ^ grid)
    (high : (digits * 10 ^ grid : ℚ) < (mantissa + 1 / 2) * 2 ^ exponent) :
    (Interval.around mantissa exponent).Holds ⟨digits, grid⟩ := by
  have value := ratio_value digits (by decide : 0 < 10) grid
  push_cast at value
  apply contains_of_lt _ (ratio_den_pos digits (by decide) grid)
  · change ((Interval.around mantissa exponent).low * 2 ^ (exponent - 2) : ℚ) < _
    rwa [around_low some, value]
  · change _ < ((Interval.around mantissa exponent).high * 2 ^ (exponent - 2) : ℚ)
    rwa [around_high, value]

/-- On a grid that is fine enough a neighbour of the number lies in the interval. -/
theorem holds_neighbour (canonical : Canonical mantissa exponent) (some : 0 < mantissa) (grid : Int)
    (fine : (10 ^ (grid + 16) : ℚ) ≤ mantissa * 2 ^ exponent) :
    (Interval.around mantissa exponent).Holds
        ⟨(Interval.around mantissa exponent).below grid, grid⟩ ∨
      (Interval.around mantissa exponent).Holds
        ⟨(Interval.around mantissa exponent).below grid + 1, grid⟩ := by
  obtain ⟨low, high⟩ := below_bounds mantissa exponent grid
  have unit : (0 : ℚ) < 2 ^ exponent := by positivity
  have bound : (mantissa : ℚ) < 2 ^ 53 := by
    have small : mantissa < 2 ^ 53 := canonical.mantissa_lt
    exact_mod_cast small
  have power : (10 : ℚ) ^ (grid + 16) = 10 ^ grid * 10 ^ 16 := by
    rw [zpow_add₀ (by norm_num)]
    norm_num
  rw [power] at fine
  by_cases smallest : mantissa = hidden
  · -- Above a power of two the upper neighbour is close enough.
    right
    have part : (0 : ℚ) < lowerPart mantissa exponent := by
      unfold lowerPart
      split <;> norm_num
    have size : (mantissa : ℚ) = 2 ^ 52 := by
      rw [smallest, hidden]
      norm_num
    rw [size] at fine
    apply holds_of_lt some
    · push_cast
      nlinarith
    · push_cast
      nlinarith
  · have part : lowerPart mantissa exponent = 1 / 2 := by
      unfold lowerPart
      rw [if_neg fun both => smallest both.1]
    generalize (Interval.around mantissa exponent).below grid = below at *
    -- Elsewhere the interval is even, and the nearer of the two neighbours is in it.
    by_cases near : 2 * (mantissa * 2 ^ exponent - below * 10 ^ grid) ≤ (10 ^ grid : ℚ)
    · left
      apply holds_of_lt some
      · rw [part]
        nlinarith
      · nlinarith
    · right
      apply holds_of_lt some
      · rw [part]
        push_cast
        nlinarith
      · push_cast
        nlinarith

/-- The shortest decimal of a number lies in its interval, and it is positive. -/
theorem holds_shortest (canonical : Canonical mantissa exponent) (some : 0 < mantissa) :
    (Interval.around mantissa exponent).Holds (shortest mantissa exponent) ∧
      0 < (shortest mantissa exponent).digits := by
  set first := decimalExponent (ratio mantissa 2 exponent).1 (ratio mantissa 2 exponent).2
  have numPos : 0 < (ratio mantissa 2 exponent).1 := Nat.mul_pos some (Nat.pow_pos two_pos)
  have value := ratio_value mantissa two_pos exponent
  push_cast at value
  have least : (10 ^ first : ℚ) ≤ mantissa * 2 ^ exponent := by
    rw [← value]
    exact pow_decimalExponent_le numPos (ratio_den_pos mantissa two_pos exponent)
  have hit := exists_gridPoint? (holds_neighbour canonical some (first - 16)
    (by rwa [Int.sub_add_cancel]))
  obtain ⟨j, holds, atLeast⟩ := holds_firstPoint mostDigits (k := 16) (by decide) hit
  refine ⟨holds, lt_of_lt_of_le ?_ atLeast⟩
  -- Already on the first grid there is a whole unit below the number.
  have finer : (10 ^ (first - j) : ℚ) ≤ mantissa * 2 ^ exponent :=
    (zpow_le_zpow_right₀ (by norm_num) (by omega)).trans least
  have above := (below_bounds mantissa exponent (first - j)).2
  by_contra none
  rw [Nat.eq_zero_of_not_pos none] at above
  push_cast at above
  linarith

end

end StepScript.Number
