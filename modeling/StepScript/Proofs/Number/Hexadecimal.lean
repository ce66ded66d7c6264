import StepScript.Proofs.Number.Arithmetic
import StepScript.Proofs.Number.Numeral

/-! Hexadecimal numbers.

Decimal digits are first summed up and then rounded, hexadecimal digits are summed up in
numbers, which may round at every digit. The first digits are summed up exactly as long
as 53 bits can hold them, and the digit that fills these up rounds to the nearest number.
Every later digit is less than half a place and so does not count. So both agree unless a
value is rounded down to a tie by the loss of its last digits.
-/

set_option autoImplicit false

namespace StepScript.Number

/-! ## The numbers nearest to naturals -/

section

variable {n k : Nat}

theorem nearestCode_le (num den : Nat) : nearestCode num den ≤ infinityCode := by
  unfold nearestCode
  split
  · exact Nat.zero_le _
  · exact Nat.min_le_right _ _

theorem code_nearest (num den : Nat) : code (nearest num den) = nearestCode num den := by
  have small := nearestCode_le num den
  apply code_ofBits
  · exact (Nat.mod_le _ _).trans small
  · exact lt_of_le_of_lt small (by decide)

def naturalMantissa (n : Nat) : Nat :=
  roundHalfEven (n * 2 ^ (52 - n.log2)) (2 ^ (n.log2 - 52))

def naturalCode (n : Nat) : Nat :=
  (n.log2 + 1022) * hidden + naturalMantissa n

theorem scaled_natural (some : 0 < n) : Scaled ((n : ℚ) / (1 : Nat)) (n.log2 - 52) := by
  have scaled := scaled_targetExponent (e := 0) some
  rw [targetExponent_eq, Int.max_eq_left (by simp only [leastExponent]; omega)] at scaled
  simpa using scaled

theorem roundHalfEven_natural (n : Nat) :
    roundHalfEven (ratio n 2 (-(n.log2 - 52))).1 (1 * (ratio n 2 (-(n.log2 - 52))).2) =
      naturalMantissa n := by
  have up : (-((n.log2 : Int) - 52)).toNat = 52 - n.log2 := by omega
  have down : (-(-((n.log2 : Int) - 52))).toNat = n.log2 - 52 := by omega
  simp only [ratio, up, down, Nat.one_mul]
  rfl

theorem nearestCode_natural (some : 0 < n) :
    nearestCode n 1 = min (naturalCode n) infinityCode := by
  have exponent := (scaled_exponentOf some Nat.one_pos).unique (scaled_natural some)
  have places : ((n.log2 : Int) - 52 - leastExponent).toNat = n.log2 + 1022 := by
    simp only [leastExponent]
    omega
  rw [nearestCode, if_neg (Nat.ne_of_gt some), exponent]
  simp only [places, roundHalfEven_natural]
  rfl

theorem naturalMantissa_bounds (some : 0 < n) :
    hidden ≤ naturalMantissa n ∧ naturalMantissa n ≤ 2 * hidden := by
  have bounds := (scaled_natural some).rounded Nat.one_pos
  rw [roundHalfEven_natural] at bounds
  refine ⟨bounds.2.resolve_right ?_, bounds.1⟩
  simp only [leastExponent]
  omega

theorem naturalMantissa_mul_two_pow (some : 0 < n) (k : Nat) :
    naturalMantissa (n * 2 ^ k) = naturalMantissa n := by
  have positive (m : Nat) (e : Int) : 0 < 1 * (ratio m 2 e).2 :=
    Nat.mul_pos Nat.one_pos (ratio_den_pos m two_pos e)
  rw [← roundHalfEven_natural, ← roundHalfEven_natural]
  apply roundHalfEven_congr (positive _ _) (positive _ _)
  rw [scaled_value, scaled_value, log2_mul_two_pow some]
  push_cast
  rw [show (n.log2 + k - 52 : Int) = n.log2 - 52 + k by ring, zpow_add₀ two_ne_zero, zpow_natCast]
  field_simp

theorem naturalCode_mul_two_pow (some : 0 < n) (k : Nat) :
    naturalCode (n * 2 ^ k) = naturalCode n + k * hidden := by
  rw [naturalCode, naturalMantissa_mul_two_pow some, log2_mul_two_pow some, naturalCode]
  ring

theorem exists_canonical_of_natural (some : 0 < n) (finite : naturalCode n < infinityCode) :
    ∃ m e, Canonical m e ∧ 0 < m ∧ (n.log2 : Int) - 52 ≤ e ∧ naturalCode n = encode m e := by
  obtain ⟨low, high⟩ := naturalMantissa_bounds some
  rw [naturalCode, infinityCode] at finite
  have few : n.log2 + 1022 < 2046 := by
    by_contra many
    have product := Nat.mul_le_mul_right hidden (Nat.not_lt.mp many)
    omega
  rcases Nat.lt_or_eq_of_le high with less | carried
  · refine ⟨naturalMantissa n, n.log2 - 52, ⟨less, ?_, ?_, .inl low⟩, ?_, Int.le_refl _, ?_⟩
    · simp only [leastExponent]
      omega
    · omega
    · exact Nat.lt_of_lt_of_le (by decide) low
    · rw [naturalCode, encode]
      congr 2
      simp only [leastExponent]
      omega
  · have fewer : n.log2 + 1022 < 2045 := by
      by_contra many
      have product := Nat.mul_le_mul_right hidden (Nat.not_lt.mp many)
      omega
    refine ⟨hidden, n.log2 - 51, ⟨by decide, ?_, ?_, .inl (Nat.le_refl _)⟩, by decide, by omega, ?_⟩
    · simp only [leastExponent]
      omega
    · omega
    · have places : ((n.log2 : Int) - 51 - leastExponent).toNat = n.log2 + 1022 + 1 := by
        simp only [leastExponent]
        omega
      rw [naturalCode, encode, carried, places, Nat.succ_mul (n.log2 + 1022), Nat.two_mul,
        Nat.add_assoc]

theorem nearest_zero : nearest 0 1 = 0.0 := by
  decide +kernel

theorem represents_zero : Represents 0.0 0 := by
  have canonical : Canonical 0 leastExponent := ⟨by decide, by decide, by decide, .inr rfl⟩
  have exact := represents_of_code (x := 0.0) canonical (by decide +kernel)
  rwa [Nat.cast_zero, zero_mul] at exact

theorem represents_natural (small : n < 2 * hidden) (few : k ≤ 64) :
    Represents (nearest (n * 2 ^ k) 1) (n * 2 ^ k : Nat) := by
  rcases Nat.eq_zero_or_pos n with rfl | some
  · rw [Nat.zero_mul, nearest_zero, Nat.cast_zero]
    exact represents_zero
  · have bits : n.log2 < 53 := (Nat.log2_lt (Nat.ne_of_gt some)).mpr small
    -- The zeros in front are moved behind, until the mantissa has 53 bits.
    have shifted (l : Nat) (fits : l ≤ 52) : 2 ^ l * 2 ^ (52 - l) = hidden := by
      rw [← Nat.pow_add, Nat.add_sub_cancel' fits]
      rfl
    have value : ((n * 2 ^ (52 - n.log2) : Nat) * 2 ^ (n.log2 - 52 + k : Int) : ℚ) =
        (n * 2 ^ k : Nat) := by
      have unit : (2 : ℚ) ^ (52 - n.log2) * 2 ^ (n.log2 - 52 : Int) = 1 := by
        rw [two_pow_mul, show ((52 - n.log2 : Nat) : Int) + (n.log2 - 52) = 0 by omega, zpow_zero]
      rw [zpow_add₀ two_ne_zero, zpow_natCast]
      push_cast
      linear_combination (n * 2 ^ k : ℚ) * unit
    have canonical : Canonical (n * 2 ^ (52 - n.log2)) (n.log2 - 52 + k) := by
      have full := shifted n.log2 (by omega)
      refine ⟨?_, ?_, by omega, .inl ?_⟩
      · rw [← full, ← Nat.mul_assoc, ← Nat.pow_succ']
        exact Nat.mul_lt_mul_of_pos_right Nat.lt_log2_self (Nat.two_pow_pos _)
      · simp only [leastExponent]
        omega
      · rw [← full]
        exact Nat.mul_le_mul_right _ (Nat.log2_self_le (Nat.ne_of_gt some))
    rw [← value]
    apply represents_of_code canonical
    rw [code_nearest]
    apply nearestCode_of_canonical canonical (Nat.mul_pos some (Nat.two_pow_pos _)) Nat.one_pos
    rw [value]
    simp

end

/-! ## Summing up digits -/

section

variable {n d : Nat}

theorem infinity_eq {num den : Nat} (infinite : nearestCode num den = infinityCode) :
    nearest num den = infinity := by
  rw [nearest, infinite, infinity]

/-- Rounding commutes with multiplication by sixteen. -/
theorem nearest_mul_sixteen (n : Nat) : nearest n 1 * 16.0 = nearest (n * 16) 1 := by
  rw [show n * 16 = n * 2 ^ 4 from rfl]
  rcases Nat.eq_zero_or_pos n with rfl | some
  · decide +kernel
  have moved := naturalCode_mul_two_pow some 4
  have shifted := nearestCode_natural (Nat.mul_pos some (Nat.two_pow_pos 4))
  rw [moved] at shifted
  rcases Nat.lt_or_ge (naturalCode n) infinityCode with finite | infinite
  · obtain ⟨m, e, canonical, filled, high, encoded⟩ := exists_canonical_of_natural some finite
    have left : Represents (nearest n 1) (m * 2 ^ e) := by
      apply represents_of_code canonical
      rw [code_nearest, nearestCode_natural some, Nat.min_eq_left finite.le, encoded]
    have right : Represents 16.0 ((2 ^ 52 : Nat) * 2 ^ (-48 : Int)) :=
      represents_of_code ⟨by decide, by decide, by decide, .inl (by decide)⟩ (by decide +kernel)
    have product : ((ratio m 2 (e + 4)).1 : ℚ) / (ratio m 2 (e + 4)).2 =
        m * 2 ^ e * ((2 ^ 52 : Nat) * 2 ^ (-48 : Int)) := by
      rw [ratio_value m two_pos, Nat.cast_ofNat, zpow_add₀ two_ne_zero]
      norm_num
      ring
    have least := canonical.le_exponent
    have full : hidden ≤ m := canonical.normal.resolve_right (by simp only [leastExponent]; omega)
    have raised : encode m (e + 4) = encode m e + 4 * hidden := by
      rw [encode, encode, show (e + 4 - leastExponent).toNat = (e - leastExponent).toNat + 4 by omega,
        Nat.add_mul]
      ring
    apply eq_of_code_eq
    rw [left.mul right (ratio_den_pos m two_pos _) product, code_nearest, shifted, encoded, ← raised]
    exact nearestCode_exact filled canonical.mantissa_lt (by omega) (.inl full)
      (ratio_den_pos m two_pos _) (ratio_value m two_pos _)
  · have here : nearestCode n 1 = infinityCode := by
      rw [nearestCode_natural some, Nat.min_eq_right infinite]
    have there : nearestCode (n * 2 ^ 4) 1 = infinityCode := by
      rw [shifted, Nat.min_eq_right (infinite.trans (Nat.le_add_right _ _))]
    rw [infinity_eq here, infinity_eq there]
    decide +kernel

theorem represents_digit (small : d < 16) : Represents (Float.ofNat d) d := by
  have same : ∀ d < 16, Float.ofNat d = nearest d 1 := by decide +kernel
  have exact := represents_natural (n := d) (k := 0) (small.trans (by decide)) (Nat.zero_le _)
  rwa [Nat.pow_zero, Nat.mul_one, ← same d small] at exact

/-- A digit behind fewer than 53 bits rounds once. -/
theorem nearest_add_digit (few : n < 2 * hidden) (small : d < 16) :
    nearest (n * 16) 1 + Float.ofNat d = nearest (n * 16 + d) 1 := by
  have exact := represents_natural (k := 4) few (by decide)
  apply eq_of_code_eq
  rw [code_nearest]
  apply exact.add (represents_digit small) Nat.one_pos
  push_cast
  ring

theorem nearestCode_of_less {m : Nat} {e : Int} (canonical : Canonical m e) (some : 0 < m)
    {num : Nat} (low : (m * 2 ^ e : ℚ) ≤ num) (high : (num : ℚ) < (m + 1 / 2) * 2 ^ e) :
    nearestCode num 1 = encode m e := by
  have unit : (0 : ℚ) < 2 ^ e := by positivity
  have below : ((m - lowerPart m e) * 2 ^ e : ℚ) < m * 2 ^ e := by
    have part : 0 < lowerPart m e := by
      unfold lowerPart
      split <;> norm_num
    gcongr
    linarith
  apply nearestCode_eq canonical some Nat.one_pos
  rw [contains_iff _ Nat.one_pos]
  have interval : (Interval.around m e).exponent = e - 2 := rfl
  rw [interval, around_low some, around_high, Nat.cast_one, div_one]
  split
  · exact ⟨(below.trans_le low).le, high.le⟩
  · exact ⟨below.trans_le low, high⟩

/-- A digit behind 57 bits is less than half a place, and does not count. -/
theorem nearest_add_late_digit (many : 57 ≤ n.log2) (small : d < 16) :
    nearest n 1 + Float.ofNat d = nearest n 1 := by
  have some : 0 < n := by
    apply Nat.pos_of_ne_zero
    rintro rfl
    rw [Nat.log2_zero] at many
    omega
  have here := nearestCode_natural some
  rcases Nat.lt_or_ge (naturalCode n) infinityCode with finite | infinite
  · obtain ⟨m, e, canonical, filled, high, encoded⟩ := exists_canonical_of_natural some finite
    rw [Nat.min_eq_left finite.le, encoded] at here
    have left : Represents (nearest n 1) (m * 2 ^ e) :=
      represents_of_code canonical ((code_nearest n 1).trans here)
    have power : ((2 ^ e.toNat : Nat) : ℚ) = 2 ^ e := by
      rw [Nat.cast_pow, Nat.cast_ofNat, ← zpow_natCast, Int.toNat_of_nonneg (by omega)]
    -- A place is worth at least 32 here, so a digit is less than half of one.
    have places : (32 : ℚ) ≤ 2 ^ e := by
      calc (32 : ℚ) = 2 ^ (5 : Int) := by norm_num
        _ ≤ 2 ^ e := zpow_le_zpow_right₀ one_le_two (by omega)
    have digit : (d : ℚ) < 16 := by exact_mod_cast small
    have sum : ((m * 2 ^ e.toNat + d : Nat) : ℚ) / (1 : Nat) = m * 2 ^ e + d := by
      rw [Nat.cast_add, Nat.cast_mul, power, Nat.cast_one, div_one]
    apply eq_of_code_eq
    rw [left.add (represents_digit small) Nat.one_pos sum, code_nearest, here]
    rw [Nat.cast_one, div_one] at sum
    apply nearestCode_of_less canonical filled <;> rw [sum]
    · exact le_add_of_nonneg_right (Nat.cast_nonneg d)
    · linarith
  · rw [infinity_eq (here.trans (Nat.min_eq_right infinite))]
    have stays : ∀ d < 16, infinity + Float.ofNat d = infinity := by decide +kernel
    exact stays d small

def hexSum (digits : List Nat) : Nat :=
  digits.foldl (fun sum digit => sum * 16 + digit) 0

/-- How many of the last hexadecimal digits of a natural come when 53 bits are full already
without the digit in front of them. -/
def lateDigits (n : Nat) : Nat :=
  (n.log2 - 53) / 4

def withoutLate (n : Nat) : Nat :=
  n / 16 ^ lateDigits n * 16 ^ lateDigits n

theorem withoutLate_of_lt (few : n.log2 < 57) : withoutLate n = n := by
  have none : lateDigits n = 0 := by
    rw [lateDigits]
    omega
  rw [withoutLate, none, Nat.pow_zero, Nat.div_one, Nat.mul_one]

theorem log2_append_digit (some : 0 < n) (small : d < 16) : (n * 16 + d).log2 = n.log2 + 4 := by
  have low := Nat.log2_self_le (Nat.ne_of_gt some)
  have high := Nat.lt_log2_self (n := n)
  rw [Nat.log2_eq_iff (by omega), Nat.pow_add, Nat.pow_succ _ (n.log2 + 4), Nat.pow_add]
  rw [Nat.pow_succ] at high
  omega

theorem log2_withoutLate (n : Nat) : (withoutLate n).log2 = n.log2 := by
  rcases Nat.lt_or_ge n.log2 57 with few | many
  · rw [withoutLate_of_lt few]
  · have nonzero : n ≠ 0 := by
      rintro rfl
      rw [Nat.log2_zero] at many
      omega
    -- The late digits are below the leading bit.
    have power : 2 ^ n.log2 = 2 ^ (n.log2 - 4 * lateDigits n) * 16 ^ lateDigits n := by
      rw [show 16 = 2 ^ 4 from rfl, ← Nat.pow_mul, ← Nat.pow_add, Nat.sub_add_cancel]
      rw [lateDigits]
      omega
    have low : 2 ^ n.log2 ≤ withoutLate n := by
      rw [power, withoutLate]
      apply Nat.mul_le_mul_right
      rw [Nat.le_div_iff_mul_le (Nat.pow_pos (by decide)), ← power]
      exact Nat.log2_self_le nonzero
    have high : withoutLate n < 2 ^ (n.log2 + 1) :=
      lt_of_le_of_lt (Nat.div_mul_le_self n _) Nat.lt_log2_self
    have positive : withoutLate n ≠ 0 := Nat.ne_of_gt (Nat.lt_of_lt_of_le (Nat.two_pow_pos _) low)
    exact (Nat.log2_eq_iff positive).mpr ⟨low, high⟩

theorem withoutLate_append (many : 53 ≤ n.log2) (small : d < 16) :
    withoutLate (n * 16 + d) = withoutLate n * 16 := by
  have some : 0 < n := by
    apply Nat.pos_of_ne_zero
    rintro rfl
    rw [Nat.log2_zero] at many
    omega
  have next : lateDigits (n * 16 + d) = lateDigits n + 1 := by
    rw [lateDigits, log2_append_digit some small, lateDigits]
    omega
  have rest : (n * 16 + d) / 16 = n := by omega
  rw [withoutLate, next, Nat.pow_succ', ← Nat.div_div_eq_div_mul, rest, withoutLate]
  ring

theorem nearest_append_digit (n : Nat) (small : d < 16) :
    nearest (withoutLate n) 1 * 16.0 + Float.ofNat d = nearest (withoutLate (n * 16 + d)) 1 := by
  rw [nearest_mul_sixteen]
  rcases Nat.lt_or_ge n.log2 53 with few | many
  · have fits : n < 2 * hidden := lt_of_lt_of_le Nat.lt_log2_self (Nat.pow_le_pow_right two_pos few)
    have fewNext : (n * 16 + d).log2 < 57 := by
      rcases Nat.eq_zero_or_pos n with rfl | some
      · have all : ∀ d < 16, (0 * 16 + d).log2 < 57 := by decide
        exact all d small
      · rw [log2_append_digit some small]
        omega
    rw [withoutLate_of_lt (by omega), withoutLate_of_lt fewNext, nearest_add_digit fits small]
  · have some : 0 < withoutLate n := by
      apply Nat.pos_of_ne_zero
      intro zero
      rw [← log2_withoutLate, zero, Nat.log2_zero] at many
      omega
    have full : 57 ≤ (withoutLate n * 16).log2 := by
      have moved := log2_mul_two_pow some 4
      rw [log2_withoutLate] at moved
      change 57 ≤ (withoutLate n * 2 ^ 4).log2
      omega
    rw [withoutLate_append many small, nearest_add_late_digit full small]

/-- Hexadecimal digits are summed up to the number nearest to their value without its late
digits. -/
theorem hexValue_eq {digits : List Nat} (small : ∀ digit ∈ digits, digit < 16) :
    hexValue digits = nearest (withoutLate (hexSum digits)) 1 := by
  induction digits using List.reverseRecOn with
  | nil => exact nearest_zero.symm
  | append_singleton digits d ih =>
    have one := small d (by simp)
    have step := nearest_append_digit (hexSum digits) one
    rw [← ih fun digit member => small digit (by simp [member])] at step
    simpa [hexValue, hexSum] using step

end

/-! ## Where late digits matter -/

/-- The natural lies just above the middle between two numbers of which the lower one is even,
and without its late digits it lies in the middle. -/
def FallsToTie (n : Nat) : Prop :=
  n.log2 < 1024 ∧ n / 2 ^ (n.log2 - 52) % 2 = 0 ∧
    2 ^ (n.log2 - 53) < n % 2 ^ (n.log2 - 52) ∧
    n % 2 ^ (n.log2 - 52) < 2 ^ (n.log2 - 53) + 16 ^ lateDigits n

instance (n : Nat) : Decidable (FallsToTie n) :=
  inferInstanceAs (Decidable (_ ∧ _ ∧ _ ∧ _))

section

variable {n q half unit : Nat}

/-- Zeros for the places below a unit change rounding only from above a tie to the tie. -/
theorem roundHalfEven_cut (some : 0 < unit) (half : Nat) (n : Nat) :
    roundHalfEven (n / unit * unit) (2 * (unit * half)) =
      if n / (2 * (unit * half)) % 2 = 0 ∧ unit * half < n % (2 * (unit * half)) ∧
          n % (2 * (unit * half)) < unit * half + unit then
        roundHalfEven n (2 * (unit * half)) - 1
      else roundHalfEven n (2 * (unit * half)) := by
  have den : 2 * (unit * half) = unit * (2 * half) := by ring
  have quotient : n / unit * unit / (unit * (2 * half)) = n / (unit * (2 * half)) := by
    rw [Nat.mul_comm unit, Nat.mul_div_mul_right _ _ some, Nat.div_div_eq_div_mul, Nat.mul_comm unit]
  have rest : n / unit * unit % (unit * (2 * half)) = n / unit % (2 * half) * unit := by
    rw [Nat.mul_comm unit, Nat.mul_mod_mul_right]
  have whole : n % (unit * (2 * half)) = n % unit + unit * (n / unit % (2 * half)) := Nat.mod_mul
  have small := Nat.mod_lt n some
  unfold roundHalfEven
  simp only [den, quotient, rest, whole]
  generalize n / (unit * (2 * half)) = q
  generalize n / unit % (2 * half) = w
  generalize n % unit = t at *
  rw [Nat.mul_comm w unit, Nat.mul_left_comm unit 2 half]
  -- The rest in units and the half in units decide, unless they are the same.
  rcases Nat.lt_trichotomy w half with less | rfl | more
  · have step := Nat.mul_le_mul_left unit less
    rw [Nat.mul_succ] at step
    generalize unit * w = a at *
    generalize unit * half = b at *
    rw [if_neg (by omega), if_neg (by omega), if_neg (by omega)]
  · generalize unit * w = a at *
    by_cases even : q % 2 = 0 ∧ 0 < t
    · rw [if_neg (by omega), if_pos (by omega), if_pos (by omega), Nat.add_sub_cancel]
    · rw [if_neg (by omega : ¬ (q % 2 = 0 ∧ a < t + a ∧ t + a < a + unit))]
      split <;> split <;> omega
  · have step := Nat.mul_le_mul_left unit more
    rw [Nat.mul_succ] at step
    generalize unit * w = a at *
    generalize unit * half = b at *
    rw [if_pos (by omega), if_neg (by omega), if_pos (by omega)]

theorem naturalMantissa_eq (many : 52 ≤ n.log2) :
    naturalMantissa n = roundHalfEven n (2 ^ (n.log2 - 52)) := by
  rw [naturalMantissa, Nat.sub_eq_zero_of_le many, Nat.pow_zero, Nat.mul_one]

/-- Zeros for the late digits change what a natural is rounded to just if it falls to a tie. -/
theorem naturalMantissa_withoutLate (many : 57 ≤ n.log2) (finite : n.log2 < 1024) :
    naturalMantissa (withoutLate n) =
      if FallsToTie n then naturalMantissa n - 1 else naturalMantissa n := by
  have half : 2 ^ (n.log2 - 53) = 16 ^ lateDigits n * 2 ^ (n.log2 - 53 - 4 * lateDigits n) := by
    rw [show 16 = 2 ^ 4 from rfl, ← Nat.pow_mul, ← Nat.pow_add, Nat.add_sub_cancel']
    rw [lateDigits]
    omega
  have place : 2 ^ (n.log2 - 52) = 2 * 2 ^ (n.log2 - 53) := by
    rw [show n.log2 - 52 = n.log2 - 53 + 1 by omega, Nat.pow_succ']
  have cut := roundHalfEven_cut (Nat.pow_pos (n := lateDigits n) (by decide : 0 < 16))
    (2 ^ (n.log2 - 53 - 4 * lateDigits n)) n
  have same := log2_withoutLate n
  rw [← half, ← place] at cut
  rw [naturalMantissa_eq (by omega), naturalMantissa_eq (by omega), same, withoutLate, cut]
  unfold FallsToTie
  simp only [finite, true_and]

theorem nearest_eq_iff {m n : Nat} :
    nearest m 1 = nearest n 1 ↔ nearestCode m 1 = nearestCode n 1 := by
  constructor
  · intro same
    rw [← code_nearest, ← code_nearest, same]
  · intro same
    rw [nearest, nearest, same]

theorem not_fallsToTie_of_lt (few : n.log2 < 57) : ¬ FallsToTie n := by
  rintro ⟨-, -, low, high⟩
  have none : lateDigits n = 0 := by
    rw [lateDigits]
    omega
  rw [none, Nat.pow_zero] at high
  omega

/-- A natural and the same without its late digits round to one number unless it falls to a
tie. -/
theorem nearest_withoutLate_iff (n : Nat) :
    nearest (withoutLate n) 1 = nearest n 1 ↔ ¬ FallsToTie n := by
  rcases Nat.lt_or_ge n.log2 57 with few | many
  · rw [withoutLate_of_lt few]
    exact iff_of_true rfl (not_fallsToTie_of_lt few)
  have some : 0 < n := by
    apply Nat.pos_of_ne_zero
    rintro rfl
    rw [Nat.log2_zero] at many
    omega
  have someLate : 0 < withoutLate n := by
    apply Nat.pos_of_ne_zero
    intro zero
    rw [← log2_withoutLate, zero, Nat.log2_zero] at many
    omega
  rw [nearest_eq_iff, nearestCode_natural some, nearestCode_natural someLate, naturalCode,
    naturalCode, log2_withoutLate]
  obtain ⟨low, high⟩ := naturalMantissa_bounds some
  obtain ⟨lowLate, -⟩ := naturalMantissa_bounds someLate
  rcases Nat.lt_or_ge n.log2 1024 with finite | infinite
  · have cut := naturalMantissa_withoutLate many finite
    by_cases falls : FallsToTie n
    · rw [if_pos falls] at cut
      have below : (n.log2 + 1022) * hidden + naturalMantissa (withoutLate n) < infinityCode := by
        have product := Nat.mul_le_mul_right hidden (Nat.le_of_lt_succ finite)
        simp only [infinityCode, hidden] at *
        omega
      have one : 0 < hidden := by decide
      generalize (n.log2 + 1022) * hidden = place at *
      rw [Nat.min_eq_left below.le]
      exact iff_of_false (by omega) (not_not.mpr falls)
    · rw [cut, if_neg falls]
      exact iff_of_true rfl falls
  · -- Beyond the greatest number both are rounded to infinity.
    have large {m : Nat} (full : hidden ≤ m) : infinityCode ≤ (n.log2 + 1022) * hidden + m := by
      have product := Nat.mul_le_mul_right hidden (show 2046 ≤ n.log2 + 1022 by omega)
      simp only [infinityCode, hidden] at *
      omega
    rw [Nat.min_eq_right (large low), Nat.min_eq_right (large lowLate)]
    exact iff_of_true rfl fun falls => absurd falls.1 (Nat.not_lt.mpr infinite)

end

/-! ## Both readings -/

def signed (negative : Bool) (x : Float) : Float :=
  if negative then -x else x

theorem signed_inj {negative : Bool} {x y : Float} (ordered : magnitude x ≠ .nan)
    (ordered' : magnitude y ≠ .nan) : signed negative x = signed negative y ↔ x = y := by
  constructor
  · intro same
    cases negative with
    | false => exact same
    | true =>
      have back := congrArg (- ·) same
      simp only [signed, if_true] at back
      rwa [neg_neg_of_ordered ordered, neg_neg_of_ordered ordered'] at back
  · exact congrArg _

theorem Numeral.readChars_of_sign {negative : Bool} {sign text : List Char} {x : Float}
    (numeral : Numeral text x) (withSign : Sign negative sign) :
    Number.readChars (sign ++ text) = signed negative x := by
  obtain ⟨c, more, is, first⟩ := numeral.exists_cons
  have read := numeral.readChars
  rw [is, readChars_of_startsNumber (startsNumber_of_mem first)] at read
  rw [is, Number.readChars_of_sign withSign (startsNumber_of_mem first), read]
  rfl

theorem nearest_ordered (num den : Nat) : magnitude (nearest num den) ≠ .nan := by
  have small := nearestCode_le num den
  rw [magnitude, code_nearest, Nat.mod_eq_of_lt (small.trans_lt (by decide)), magnitudeOfCode]
  split
  · split
    · simp
    · simp only [infinityCode, hidden] at *
      omega
  · split <;> simp

theorem toNumber_whole (n : Nat) : Decimal.toNumber ⟨n, 0⟩ = nearest n 1 := by
  have notLarge : ¬ exponentLimit < 0 := by decide
  have notSmall : ¬ (0 : Int) + n.log2 + 1 < -exponentLimit := by
    simp only [exponentLimit]
    omega
  rcases Nat.eq_zero_or_pos n with rfl | some
  · exact nearest_zero.symm
  · unfold Decimal.toNumber
    rw [if_neg (Nat.ne_of_gt some), if_neg notLarge, if_neg notSmall]
    simp [ratio]

theorem laidOut_digits {digits : List Char} (all : AllDigits digits) (some : digits ≠ []) :
    LaidOut digits ⟨digitsValue digits, 0⟩ := by
  have laid := LaidOut.intro all (by simpa using some) .none .none
  simpa using laid

theorem hexDigit_lt {c : Char} {digit : Nat} (is : hexDigit? c = some digit) : digit < 16 := by
  have le_iff (a b : Char) : a ≤ b ↔ a.toNat ≤ b.toNat := UInt32.le_iff_toNat_le
  unfold hexDigit? at is
  split at is
  · next decimal =>
    cases is
    exact of_decide_eq_true (of_isDigit (p := fun c => decide (digitValue c < 16)) rfl decimal)
  · split at is
    · next small =>
      cases is
      rw [le_iff, le_iff] at small
      simp only [Char.reduceToNat] at *
      omega
    · split at is
      · next large =>
        cases is
        rw [le_iff, le_iff] at large
        simp only [Char.reduceToNat] at *
        omega
      · cases is

/-- What the spellings of a natural are read as, and when they agree: the decimal digits are
read as the nearest number, the hexadecimal digits as the one nearest to the natural without
its late digits, which are the same unless the natural falls to a tie. In a program they stand
for these numbers too. -/
theorem readings_of_hexadecimal_and_decimal {negative : Bool} {sign : List Char}
    (withSign : Sign negative sign) {mark : Char} (markIs : isHexMark mark = true)
    {hex decimal : List Char} (allHex : AllHexDigits hex) (someHex : hex ≠ [])
    (allDecimal : AllDigits decimal) (someDecimal : decimal ≠ [])
    (same : hexSum (hex.filterMap hexDigit?) = digitsValue decimal) :
    readChars (sign ++ '0' :: mark :: hex) =
        signed negative (nearest (withoutLate (digitsValue decimal)) 1) ∧
      readChars (sign ++ decimal) = signed negative (nearest (digitsValue decimal) 1) ∧
      (readChars (sign ++ '0' :: mark :: hex) = readChars (sign ++ decimal) ↔
        ¬ FallsToTie (digitsValue decimal)) ∧
      Numeral ('0' :: mark :: hex) (nearest (withoutLate (digitsValue decimal)) 1) ∧
      Numeral decimal (nearest (digitsValue decimal) 1) := by
  have small : ∀ digit ∈ hex.filterMap hexDigit?, digit < 16 := by
    intro digit member
    obtain ⟨c, -, is⟩ := List.mem_filterMap.mp member
    exact hexDigit_lt is
  have numeralHex := Numeral.hexadecimal markIs allHex someHex
  have numeralDecimal := Numeral.decimal (laidOut_digits allDecimal someDecimal)
  rw [hexValue_eq small, same] at numeralHex
  rw [toNumber_whole] at numeralDecimal
  have left := numeralHex.readChars_of_sign withSign
  have right := numeralDecimal.readChars_of_sign withSign
  refine ⟨left, right, ?_, numeralHex, numeralDecimal⟩
  rw [left, right, signed_inj (nearest_ordered _ _) (nearest_ordered _ _),
    nearest_withoutLate_iff]

/-- Behind `2 ^ 57` one sixteenth of a place is lost that would decide against the tie. -/
theorem readings_of_two_pow_57_plus_17 :
    readChars "0x200000000000011".toList ≠ readChars "144115188075855889".toList := by
  have markIs : isHexMark 'x' = true := rfl
  have allHex : AllHexDigits "200000000000011".toList := by simp [AllHexDigits, hexDigit?]
  have allDecimal : AllDigits "144115188075855889".toList := by simp [AllDigits, Char.isDigit]
  have readings := readings_of_hexadecimal_and_decimal .none markIs allHex (by decide) allDecimal
    (by decide) (by decide)
  exact fun same => readings.2.2.1.mp same (by decide)

end StepScript.Number
