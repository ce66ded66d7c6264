import StepScript.Number.Shortest
import StepScript.Proofs.Number.Encoding

/-! Rounding to the nearest number.

Whatever ratio lies in the interval around a finite number, the number nearest to the
ratio is that one. The exponent found for the ratio is that of the number, except just
below a power of two: there it is one less, and rounding carries into it.
-/

set_option autoImplicit false

namespace StepScript.Number

/-! ## Ratios as rationals -/

theorem ratio_den_pos (mantissa : Nat) {base : Nat} (some : 0 < base) (exponent : Int) :
    0 < (ratio mantissa base exponent).2 :=
  Nat.pow_pos some

theorem ratio_value (mantissa : Nat) {base : Nat} (some : 0 < base) (exponent : Int) :
    ((ratio mantissa base exponent).1 : ℚ) / (ratio mantissa base exponent).2 =
      mantissa * (base : ℚ) ^ exponent := by
  have nonzero : (base : ℚ) ≠ 0 := by exact_mod_cast Nat.ne_of_gt some
  have parts : (exponent.toNat : Int) - (-exponent).toNat = exponent := by omega
  have power : (base : ℚ) ^ exponent =
      (base : ℚ) ^ exponent.toNat / (base : ℚ) ^ (-exponent).toNat := by
    rw [← zpow_natCast, ← zpow_natCast, ← zpow_sub₀ nonzero, parts]
  simp only [ratio, Nat.pow_eq, Nat.cast_mul, Nat.cast_pow]
  rw [power, mul_div_assoc]

/-! ## Rounding to an integer -/

theorem roundHalfEven_eq {num den m : Nat} (some : 0 < den)
    (low : 2 * (m * den) ≤ 2 * num + den) (high : 2 * num ≤ 2 * (m * den) + den)
    (strict : m % 2 = 1 → 2 * (m * den) < 2 * num + den ∧ 2 * num < 2 * (m * den) + den) :
    roundHalfEven num den = m := by
  have split := Nat.div_add_mod num den
  have rest := Nat.mod_lt num some
  unfold roundHalfEven
  simp only
  generalize num / den = quotient at *
  generalize num % den = remainder at *
  have above : quotient ≤ m := by
    by_contra less
    have step : (m + 1) * den ≤ quotient * den := Nat.mul_le_mul_right den (Nat.lt_of_not_le less)
    have swap := Nat.mul_comm den quotient
    rw [Nat.succ_mul] at step
    omega
  have below : m ≤ quotient + 1 := by
    by_contra more
    have step : (quotient + 2) * den ≤ m * den := Nat.mul_le_mul_right den (Nat.lt_of_not_le more)
    have swap := Nat.mul_comm den quotient
    rw [Nat.add_mul] at step
    omega
  rcases Nat.lt_or_eq_of_le above with less | rfl
  · have next : m = quotient + 1 := by omega
    have product : m * den = den * quotient + den := by rw [next, Nat.succ_mul, Nat.mul_comm]
    rw [product] at low high strict
    rw [if_pos (by omega), next]
  · rw [Nat.mul_comm quotient den] at low high strict
    rw [if_neg (by omega)]

theorem roundHalfEven_eq_of_near {num den m : Nat} (some : 0 < den)
    (low : (m : ℚ) - 1 / 2 ≤ num / den) (high : (num : ℚ) / den ≤ m + 1 / 2)
    (strict : m % 2 = 1 → (m : ℚ) - 1 / 2 < num / den ∧ (num : ℚ) / den < m + 1 / 2) :
    roundHalfEven num den = m := by
  have positive : (0 : ℚ) < den := by exact_mod_cast some
  apply roundHalfEven_eq some
  · rw [le_div_iff₀ positive] at low
    have scaled : (2 : ℚ) * (m * den) ≤ 2 * num + den := by linarith
    exact_mod_cast scaled
  · rw [div_le_iff₀ positive] at high
    have scaled : (2 : ℚ) * num ≤ 2 * (m * den) + den := by linarith
    exact_mod_cast scaled
  · intro odd
    obtain ⟨low, high⟩ := strict odd
    rw [lt_div_iff₀ positive] at low
    rw [div_lt_iff₀ positive] at high
    constructor
    · have scaled : (2 : ℚ) * (m * den) < 2 * num + den := by linarith
      exact_mod_cast scaled
    · have scaled : (2 : ℚ) * num < 2 * (m * den) + den := by linarith
      exact_mod_cast scaled

/-! ## The exponent of a ratio -/

/-- At its exponent a ratio has a mantissa of 53 bits, or fewer at the least
exponent. -/
structure Scaled (value : ℚ) (exponent : Int) : Prop where
  least : leastExponent ≤ exponent
  lt : value < 2 ^ 53 * 2 ^ exponent
  le : exponent = leastExponent ∨ 2 ^ 52 * 2 ^ exponent ≤ value

theorem scaled_value (num den : Nat) (exponent : Int) :
    ((ratio num 2 (-exponent)).1 : ℚ) / (den * (ratio num 2 (-exponent)).2 : Nat) =
      num / den / 2 ^ exponent := by
  have value := ratio_value num two_pos (-exponent)
  rw [Nat.cast_mul, mul_comm (den : ℚ), ← div_div, value, zpow_neg]
  push_cast
  field_simp

theorem two_pow_mul (k : Nat) (e : Int) : (2 : ℚ) ^ k * 2 ^ e = 2 ^ (k + e) := by
  rw [zpow_add₀ two_ne_zero, zpow_natCast]

theorem two_pow_succ_mul (k : Nat) (e : Int) : (2 : ℚ) ^ (k + 1) * 2 ^ (e - 1) = 2 ^ k * 2 ^ e := by
  rw [two_pow_mul, two_pow_mul]
  congr 1
  omega

theorem two_zpow_sub_one (e : Int) : (2 : ℚ) ^ (e - 1) = 2 ^ e / 2 := by
  rw [zpow_sub₀ two_ne_zero, zpow_one]

theorem two_zpow_sub_two (e : Int) : (2 : ℚ) ^ (e - 2) = 2 ^ e / 4 := by
  rw [zpow_sub₀ two_ne_zero]
  norm_num

theorem log2_bounds {n : Nat} (some : 0 < n) :
    (2 : ℚ) ^ (n.log2 : Int) ≤ n ∧ (n : ℚ) < 2 ^ (n.log2 + 1 : Int) := by
  constructor
  · rw [zpow_natCast]
    exact_mod_cast Nat.log2_self_le (Nat.ne_of_gt some)
  · rw [show (n.log2 + 1 : Int) = ((n.log2 + 1 : Nat) : Int) by simp, zpow_natCast]
    exact_mod_cast Nat.lt_log2_self

theorem ratio_bounds {num den : Nat} (someNum : 0 < num) (someDen : 0 < den) {guess : Int}
    (sizes : guess = num.log2 - den.log2 - 52) :
    (2 : ℚ) ^ 51 * 2 ^ guess < num / den ∧ (num : ℚ) / den < 2 ^ 53 * 2 ^ guess := by
  obtain ⟨numLow, numHigh⟩ := log2_bounds someNum
  obtain ⟨denLow, denHigh⟩ := log2_bounds someDen
  have positive : (0 : ℚ) < den := by exact_mod_cast someDen
  constructor
  · have product : (2 : ℚ) ^ 51 * 2 ^ guess * 2 ^ (den.log2 + 1 : Int) = 2 ^ (num.log2 : Int) := by
      rw [two_pow_mul, ← zpow_add₀ two_ne_zero]
      congr 1
      omega
    rw [lt_div_iff₀ positive]
    calc (2 : ℚ) ^ 51 * 2 ^ guess * den < 2 ^ 51 * 2 ^ guess * 2 ^ (den.log2 + 1 : Int) := by
          gcongr
      _ = 2 ^ (num.log2 : Int) := product
      _ ≤ (num : ℚ) := numLow
  · have product : (2 : ℚ) ^ 53 * 2 ^ guess * 2 ^ (den.log2 : Int) = 2 ^ (num.log2 + 1 : Int) := by
      rw [two_pow_mul, ← zpow_add₀ two_ne_zero]
      congr 1
      omega
    rw [div_lt_iff₀ positive]
    calc (num : ℚ) < 2 ^ (num.log2 + 1 : Int) := numHigh
      _ = 2 ^ 53 * 2 ^ guess * 2 ^ (den.log2 : Int) := product.symm
      _ ≤ 2 ^ 53 * 2 ^ guess * den := by gcongr

theorem quotient_lt_iff (num : Nat) {den : Nat} (someDen : 0 < den) (guess : Int) :
    (ratio num 2 (-guess)).1 / (den * (ratio num 2 (-guess)).2) < hidden ↔
      (num : ℚ) / den < 2 ^ 52 * 2 ^ guess := by
  have product := Nat.mul_pos someDen (ratio_den_pos num two_pos (-guess))
  have productQ : (0 : ℚ) < (den * (ratio num 2 (-guess)).2 : Nat) := by exact_mod_cast product
  rw [Nat.div_lt_iff_lt_mul product, ← div_lt_iff₀ (by positivity), ← scaled_value num den guess,
    div_lt_iff₀ productQ, hidden]
  norm_cast

/-- The exponent of a ratio is the greatest one that leaves it 53 bits, but for the least one. -/
theorem exists_exponentOf {num den : Nat} (someNum : 0 < num) (someDen : 0 < den) :
    ∃ exponent : Int, exponentOf num den = max exponent leastExponent ∧
      (num : ℚ) / den < 2 ^ 53 * 2 ^ exponent ∧ (2 : ℚ) ^ 52 * 2 ^ exponent ≤ num / den := by
  set guess : Int := (num.log2 : Int) - den.log2 - 52 with isGuess
  -- The guess is right or one too large.
  obtain ⟨low, high⟩ := ratio_bounds someNum someDen isGuess
  have quotient := quotient_lt_iff num someDen guess
  by_cases small : (num : ℚ) / den < 2 ^ 52 * 2 ^ guess
  · refine ⟨guess - 1, ?_, by rwa [two_pow_succ_mul], by rw [two_pow_succ_mul]; exact low.le⟩
    simp only [exponentOf, ← isGuess, if_pos (quotient.mpr small)]
  · refine ⟨guess, ?_, high, not_lt.mp small⟩
    simp only [exponentOf, ← isGuess, if_neg (mt quotient.mp small)]

theorem scaled_exponentOf {num den : Nat} (someNum : 0 < num) (someDen : 0 < den) :
    Scaled (num / den) (exponentOf num den) := by
  obtain ⟨exponent, same, less, most⟩ := exists_exponentOf someNum someDen
  rw [same]
  constructor
  · exact Int.le_max_right _ _
  · refine less.trans_le ?_
    gcongr
    · norm_num
    · exact Int.le_max_left _ _
  · rcases Int.le_total exponent leastExponent with small | large
    · exact .inl (Int.max_eq_right small)
    · rw [Int.max_eq_left large]
      exact .inr most

/-! ## Intervals -/

theorem contains_iff (i : Interval) {num den : Nat} (some : 0 < den) :
    i.contains num den = true ↔
      if i.closed then
        (i.low * 2 ^ i.exponent : ℚ) ≤ num / den ∧ (num / den : ℚ) ≤ i.high * 2 ^ i.exponent
      else
        (i.low * 2 ^ i.exponent : ℚ) < num / den ∧ (num / den : ℚ) < i.high * 2 ^ i.exponent := by
  have positive : (0 : ℚ) < den := by exact_mod_cast some
  have lowPos : (0 : ℚ) < (ratio i.low 2 i.exponent).2 := by
    exact_mod_cast ratio_den_pos i.low two_pos i.exponent
  have highPos : (0 : ℚ) < (ratio i.high 2 i.exponent).2 := by
    exact_mod_cast ratio_den_pos i.high two_pos i.exponent
  have lowValue := ratio_value i.low two_pos i.exponent
  have highValue := ratio_value i.high two_pos i.exponent
  push_cast at lowValue highValue
  unfold Interval.contains
  rw [← lowValue, ← highValue]
  cases i.closed
  · simp only [Bool.false_eq_true, if_false, Bool.and_eq_true, decide_eq_true_eq]
    rw [div_lt_div_iff₀ lowPos positive, div_lt_div_iff₀ positive highPos]
    norm_cast
  · simp only [if_true, Bool.and_eq_true, decide_eq_true_eq]
    rw [div_le_div_iff₀ lowPos positive, div_le_div_iff₀ positive highPos]
    norm_cast

/-- How far the interval around a number reaches down, in units of its last place. -/
def lowerPart (mantissa : Nat) (exponent : Int) : ℚ :=
  if mantissa = hidden ∧ leastExponent < exponent then 1 / 4 else 1 / 2

section

variable {mantissa num den : Nat} {exponent : Int}

theorem around_low (some : 0 < mantissa) :
    ((Interval.around mantissa exponent).low * 2 ^ (exponent - 2) : ℚ) =
      (mantissa - lowerPart mantissa exponent) * 2 ^ exponent := by
  rw [two_zpow_sub_two]
  unfold Interval.around lowerPart
  simp only
  split
  · rw [Nat.cast_sub (by omega)]
    push_cast
    ring
  · rw [Nat.cast_sub (by omega)]
    push_cast
    ring

theorem around_high :
    ((Interval.around mantissa exponent).high * 2 ^ (exponent - 2) : ℚ) =
      (mantissa + 1 / 2) * 2 ^ exponent := by
  rw [two_zpow_sub_two]
  unfold Interval.around
  push_cast
  ring

/-- A ratio in the interval around a number, in units of the number's last place. -/
theorem near_of_contains (some : 0 < mantissa) (someDen : 0 < den)
    (contains : (Interval.around mantissa exponent).contains num den = true) :
    (mantissa - lowerPart mantissa exponent : ℚ) * 2 ^ exponent ≤ num / den ∧
      (num / den : ℚ) ≤ (mantissa + 1 / 2) * 2 ^ exponent ∧
      (mantissa % 2 = 1 → (mantissa - lowerPart mantissa exponent : ℚ) * 2 ^ exponent < num / den ∧
        (num / den : ℚ) < (mantissa + 1 / 2) * 2 ^ exponent) := by
  rw [contains_iff _ someDen] at contains
  have unit : (Interval.around mantissa exponent).exponent = exponent - 2 := rfl
  rw [unit, around_low some, around_high] at contains
  by_cases even : mantissa % 2 = 0
  · have closed : (Interval.around mantissa exponent).closed = true := by
      simpa [Interval.around] using even
    rw [closed, if_pos rfl] at contains
    exact ⟨contains.1, contains.2, fun odd => by omega⟩
  · have closed : (Interval.around mantissa exponent).closed = false := by
      simpa [Interval.around] using even
    rw [closed] at contains
    simp only [Bool.false_eq_true, if_false] at contains
    exact ⟨contains.1.le, contains.2.le, fun _ => contains⟩

theorem lowerPart_le (mantissa : Nat) (exponent : Int) : lowerPart mantissa exponent ≤ 1 / 2 := by
  unfold lowerPart
  split <;> norm_num

theorem smallest_of_near {value : ℚ} {found : Int} (canonical : Canonical mantissa exponent)
    (scaled : Scaled value found)
    (low : (mantissa - lowerPart mantissa exponent : ℚ) * 2 ^ exponent ≤ value)
    (less : found < exponent) : mantissa = hidden ∧ lowerPart mantissa exponent = 1 / 4 := by
  have least := scaled.least
  have notLeast : exponent ≠ leastExponent := by omega
  have large : hidden ≤ mantissa := canonical.normal.resolve_right notLeast
  have half : (2 : ℚ) ^ found ≤ 2 ^ exponent / 2 := by
    rw [← two_zpow_sub_one]
    exact zpow_le_zpow_right₀ one_le_two (by omega)
  -- The value is below the least mantissa of its exponent, so the mantissa is that one.
  have below : (mantissa - lowerPart mantissa exponent : ℚ) < 2 ^ 52 := by
    have product : (mantissa - lowerPart mantissa exponent : ℚ) * 2 ^ exponent <
        2 ^ 52 * 2 ^ exponent := by
      have less := scaled.lt
      nlinarith
    exact lt_of_mul_lt_mul_right product (by positivity)
  have smallest : mantissa = hidden := by
    have part := lowerPart_le mantissa exponent
    have close : (mantissa : ℚ) < 2 ^ 52 + 1 := by linarith
    have close' : mantissa < 2 ^ 52 + 1 := by exact_mod_cast close
    simp only [hidden] at *
    omega
  refine ⟨smallest, ?_⟩
  rw [lowerPart, if_pos ⟨smallest, by omega⟩]

/-- The exponent of a ratio close to a number is the number's own, or one less just
below a power of two. -/
theorem exponent_of_near {value : ℚ} {found : Int} (canonical : Canonical mantissa exponent)
    (scaled : Scaled value found)
    (low : (mantissa - lowerPart mantissa exponent : ℚ) * 2 ^ exponent ≤ value)
    (high : value ≤ (mantissa + 1 / 2) * 2 ^ exponent) :
    found = exponent ∨ (found = exponent - 1 ∧ mantissa = hidden ∧
      ((2 : ℚ) ^ 53 - 1 / 2) * 2 ^ found ≤ value) := by
  have unit : (0 : ℚ) < 2 ^ exponent := by positivity
  rcases lt_trichotomy found exponent with less | same | more
  · right
    obtain ⟨smallest, quarter⟩ := smallest_of_near canonical scaled low less
    have size : (mantissa : ℚ) = 2 ^ 52 := by
      rw [smallest, hidden]
      norm_num
    rw [quarter, size] at low
    have next : found = exponent - 1 := by
      by_contra other
      have further : (2 : ℚ) ^ found ≤ 2 ^ exponent / 4 := by
        rw [← two_zpow_sub_two]
        exact zpow_le_zpow_right₀ one_le_two (by omega)
      have less := scaled.lt
      nlinarith
    refine ⟨next, smallest, ?_⟩
    rw [next, two_zpow_sub_one]
    linarith
  · exact .inl same
  · exfalso
    have bound : (mantissa : ℚ) + 1 ≤ 2 ^ 53 := by
      have small : mantissa + 1 ≤ 2 ^ 53 := canonical.mantissa_lt
      exact_mod_cast small
    have double : (2 : ℚ) ^ exponent ≤ 2 ^ found / 2 := by
      rw [← two_zpow_sub_one]
      exact zpow_le_zpow_right₀ one_le_two (by omega)
    have large : (2 : ℚ) ^ 52 * 2 ^ found ≤ value := by
      refine scaled.le.resolve_left ?_
      have least := canonical.le_exponent
      omega
    nlinarith

/-- Every ratio in the interval around a number rounds to that number. -/
theorem nearestCode_eq (canonical : Canonical mantissa exponent) (some : 0 < mantissa)
    (someDen : 0 < den) (contains : (Interval.around mantissa exponent).contains num den = true) :
    nearestCode num den = encode mantissa exponent := by
  obtain ⟨low, high, strict⟩ := near_of_contains some someDen contains
  have unit : (0 : ℚ) < 2 ^ exponent := by positivity
  have part := lowerPart_le mantissa exponent
  have someNum : 0 < num := by
    have atLeast : (1 : ℚ) ≤ mantissa := by exact_mod_cast some
    have positive : (0 : ℚ) < num / den := by
      refine lt_of_lt_of_le ?_ low
      apply mul_pos _ unit
      linarith
    by_contra none
    rw [Nat.eq_zero_of_not_pos none] at positive
    simp at positive
  have finite := encode_lt canonical
  have product := fun e => Nat.mul_pos someDen (ratio_den_pos num two_pos e)
  unfold nearestCode
  rw [if_neg (Nat.ne_of_gt someNum)]
  simp only
  rcases exponent_of_near canonical (scaled_exponentOf someNum someDen) low high with
    same | ⟨next, smallest, close⟩
  · have rounded : roundHalfEven (ratio num 2 (-exponentOf num den)).1
        (den * (ratio num 2 (-exponentOf num den)).2) = mantissa := by
      apply roundHalfEven_eq_of_near (product _)
      · rw [scaled_value, same, le_div_iff₀ unit]
        refine le_trans ?_ low
        gcongr
      · rw [scaled_value, same, div_le_iff₀ unit]
        exact high
      · intro odd
        rw [scaled_value, same, lt_div_iff₀ unit, div_lt_iff₀ unit]
        refine ⟨lt_of_le_of_lt ?_ (strict odd).1, (strict odd).2⟩
        gcongr
    rw [rounded, same]
    exact Nat.min_eq_left finite.le
  -- Just below a power of two the ratio has the next lower exponent, and rounds up to it.
  · have half : (0 : ℚ) < 2 ^ exponentOf num den := by positivity
    have rounded : roundHalfEven (ratio num 2 (-exponentOf num den)).1
        (den * (ratio num 2 (-exponentOf num den)).2) = 2 * hidden := by
      have size : ((2 * hidden : Nat) : ℚ) = 2 ^ 53 := by
        rw [hidden]
        norm_num
      have less := (scaled_exponentOf someNum someDen).lt
      apply roundHalfEven_eq_of_near (product _)
      · rw [scaled_value, size, le_div_iff₀ half]
        exact close
      · rw [scaled_value, size, div_le_iff₀ half]
        nlinarith
      · intro odd
        rw [Nat.mul_mod_right] at odd
        cases odd
    have carried : (exponentOf num den - leastExponent).toNat * hidden + 2 * hidden =
        encode mantissa exponent := by
      have least := (scaled_exponentOf someNum someDen).least
      have places : (exponent - leastExponent).toNat =
          (exponentOf num den - leastExponent).toNat + 1 := by omega
      rw [encode, smallest, places, Nat.add_mul, Nat.one_mul]
      omega
    rw [rounded, carried]
    exact Nat.min_eq_left finite.le

end

end StepScript.Number
