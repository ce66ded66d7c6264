import StepScript.Proofs.Number.Rounding
import StepScript.Proofs.Number.Unpacking

/-! Sums and products round once.

An operation on numbers finds its exact result as a mantissa and an exponent and shifts
the mantissa to the places that a number has. Two bits keep what is shifted out: whether
it is half a place at least, and whether it is more or less than that exactly. So the sum and
the product of two numbers are the numbers nearest to the exact ones.
-/

set_option autoImplicit false

namespace StepScript.Number

open Float.Model Float.Model.UnpackedFloat

/-! ## Shifting mantissas out -/

/-- The extended mantissa is the quotient, with what its two bits tell of the rest. -/
structure Approximates (em : ExtendedMantissa) (num den : Nat) : Prop where
  mantissa : em.mantissa = num / den
  roundBit : em.roundBit = decide (den ≤ 2 * (num % den))
  stickyBit : em.stickyBit = decide (num % den ≠ 0 ∧ 2 * (num % den) ≠ den)

theorem approximates_one (num : Nat) :
    Approximates (.ofMantissaAndAccuracy num .exact) num 1 := by
  refine ⟨(Nat.div_one num).symm, ?_, ?_⟩ <;>
    simp [ExtendedMantissa.ofMantissaAndAccuracy, Nat.mod_one]

theorem Approximates.shiftRightOne {em : ExtendedMantissa} {num den : Nat} (some : 0 < den)
    (close : Approximates em num den) : Approximates em.shiftRightOne num (2 * den) := by
  obtain ⟨mantissa, roundBit, stickyBit⟩ := close
  have rest : num % (2 * den) = num % den + den * (num / den % 2) := by
    rw [Nat.mul_comm, Nat.mod_mul]
  have small := Nat.mod_lt num some
  refine ⟨?_, ?_, ?_⟩
  · rw [ExtendedMantissa.shiftRightOne, mantissa, Nat.div_div_eq_div_mul, Nat.mul_comm]
  · rw [ExtendedMantissa.shiftRightOne, mantissa, rest]
    rcases Nat.mod_two_eq_zero_or_one (num / den) with bit | bit <;> simp [bit]
    omega
  · rw [ExtendedMantissa.shiftRightOne, roundBit, stickyBit, rest, ← Bool.decide_or,
      decide_eq_decide]
    rcases Nat.mod_two_eq_zero_or_one (num / den) with bit | bit <;> simp only [bit] <;> omega

theorem Approximates.shiftRight {em : ExtendedMantissa} {num : Nat}
    (close : Approximates em num 1) (places : Nat) :
    Approximates (em >>> places) num (2 ^ places) := by
  change Approximates (places.repeat _ em) _ _
  induction places with
  | zero => exact close
  | succ places ih =>
    rw [Nat.pow_succ']
    exact ih.shiftRightOne (Nat.two_pow_pos places)

/-- The two bits tell which way to round. -/
theorem Approximates.roundedMantissa {em : ExtendedMantissa} {num den : Nat} (some : 0 < den)
    (close : Approximates em num den) : em.roundedMantissa = roundHalfEven num den := by
  obtain ⟨mantissa, round, sticky⟩ := em
  obtain ⟨rfl, roundBit, stickyBit⟩ := close
  simp only at roundBit stickyBit
  have small := Nat.mod_lt num some
  unfold roundHalfEven
  cases round <;> cases sticky <;>
    simp [ExtendedMantissa.roundedMantissa, ExtendedMantissa.accuracy,
      Accuracy.roundToNearestEven] at roundBit stickyBit ⊢ <;>
    first | omega | split <;> omega

/-! ## Rounding ratios -/

section

variable {num den num' den' : Nat}

theorem num_pos_of_value {value : ℚ} (is : (num : ℚ) / den = value) (some : 0 < value) :
    0 < num := by
  rw [← is] at some
  by_contra none
  rw [Nat.eq_zero_of_not_pos none] at some
  simp at some

theorem bounds_roundHalfEven (num : Nat) (some : 0 < den) :
    2 * (roundHalfEven num den * den) ≤ 2 * num + den ∧
      2 * num ≤ 2 * (roundHalfEven num den * den) + den ∧
      (roundHalfEven num den % 2 = 1 → 2 * (roundHalfEven num den * den) < 2 * num + den ∧
        2 * num < 2 * (roundHalfEven num den * den) + den) := by
  have split := Nat.div_add_mod num den
  have small := Nat.mod_lt num some
  unfold roundHalfEven
  simp only
  rw [Nat.mul_comm] at split
  generalize num / den = quotient at *
  generalize num % den = rest at *
  have next : (quotient + 1) * den = quotient * den + den := Nat.succ_mul quotient den
  split <;> omega

theorem near_roundHalfEven (num : Nat) (some : 0 < den) :
    (roundHalfEven num den : ℚ) - 1 / 2 ≤ num / den ∧
      (num : ℚ) / den ≤ roundHalfEven num den + 1 / 2 ∧
      (roundHalfEven num den % 2 = 1 → (roundHalfEven num den : ℚ) - 1 / 2 < num / den ∧
        (num : ℚ) / den < roundHalfEven num den + 1 / 2) := by
  have positive : (0 : ℚ) < den := by exact_mod_cast some
  obtain ⟨low, high, strict⟩ := bounds_roundHalfEven num some
  rw [le_div_iff₀ positive, div_le_iff₀ positive, lt_div_iff₀ positive, div_lt_iff₀ positive]
  generalize roundHalfEven num den = m at *
  have low : (2 : ℚ) * (m * den) ≤ 2 * num + den := by exact_mod_cast low
  have high : (2 : ℚ) * num ≤ 2 * (m * den) + den := by exact_mod_cast high
  refine ⟨by linarith, by linarith, fun odd => ?_⟩
  have below : (2 : ℚ) * (m * den) < 2 * num + den := by exact_mod_cast (strict odd).1
  have above : (2 : ℚ) * num < 2 * (m * den) + den := by exact_mod_cast (strict odd).2
  constructor <;> linarith

theorem roundHalfEven_congr (some : 0 < den) (some' : 0 < den')
    (same : (num : ℚ) / den = num' / den') : roundHalfEven num den = roundHalfEven num' den' := by
  obtain ⟨low, high, strict⟩ := near_roundHalfEven num' some'
  rw [← same] at low high strict
  exact roundHalfEven_eq_of_near some low high strict

end

theorem Scaled.unique {value : ℚ} {a b : Int} (left : Scaled value a) (right : Scaled value b) :
    a = b := by
  have upper {a b : Int} (left : Scaled value a) (right : Scaled value b) : b ≤ a := by
    rcases right.le with least | large
    · exact least ▸ left.least
    · by_contra less
      have step : (2 : ℚ) ^ 53 * 2 ^ a ≤ 2 ^ 52 * 2 ^ b := by
        rw [two_pow_mul, two_pow_mul]
        exact zpow_le_zpow_right₀ one_le_two (by omega)
      exact absurd (left.lt.trans_le step) (not_lt.mpr large)
  exact Int.le_antisymm (upper right left) (upper left right)

/-- At its exponent a ratio is rounded to a mantissa of 53 bits, to the power of two behind
these, or at the least exponent to less. -/
theorem Scaled.rounded {num den : Nat} {e : Int} (someDen : 0 < den)
    (scaled : Scaled (num / den) e) :
    roundHalfEven (ratio num 2 (-e)).1 (den * (ratio num 2 (-e)).2) ≤ 2 * hidden ∧
      (hidden ≤ roundHalfEven (ratio num 2 (-e)).1 (den * (ratio num 2 (-e)).2) ∨
        e = leastExponent) := by
  have unit : (0 : ℚ) < 2 ^ e := by positivity
  obtain ⟨low, high, -⟩ := near_roundHalfEven (ratio num 2 (-e)).1
    (Nat.mul_pos someDen (ratio_den_pos num two_pos (-e)))
  rw [scaled_value] at low high
  generalize roundHalfEven _ _ = m at *
  constructor
  · have less := (div_lt_iff₀ unit).mpr scaled.lt
    have bound : (m : ℚ) < 2 ^ 53 + 1 := by linarith
    have bound' : m < 2 ^ 53 + 1 := by exact_mod_cast bound
    exact Nat.lt_succ_iff.mp bound'
  · rcases scaled.le with least | most
    · exact .inr least
    · left
      have more := (le_div_iff₀ unit).mpr most
      have bound : (2 ^ 52 : ℚ) < m + 1 := by linarith
      have bound' : 2 ^ 52 < m + 1 := by exact_mod_cast bound
      exact Nat.lt_succ_iff.mp bound'

/-! ## Rounding mantissas -/

section

variable {m : Nat} {e : Int}

theorem targetExponent_eq (m : Nat) (e : Int) :
    Format.binary64.targetExponent (totalExponent m e) = max (m.log2 + e - 52) leastExponent := by
  have bits : (Format.binary64.mantissaBits : Int) = 53 := rfl
  have least : Format.binary64.minExponent = leastExponent := rfl
  rw [Format.targetExponent, totalExponent, bits, least]
  congr 1
  omega

theorem scaled_targetExponent (some : 0 < m) :
    Scaled (m * 2 ^ e) (Format.binary64.targetExponent (totalExponent m e)) := by
  obtain ⟨low, high⟩ := log2_bounds some
  rw [targetExponent_eq]
  have unit : (0 : ℚ) < 2 ^ e := by positivity
  refine ⟨Int.le_max_right _ _, ?_, ?_⟩
  · calc (m * 2 ^ e : ℚ) < 2 ^ (m.log2 + 1 : Int) * 2 ^ e := by gcongr
      _ = 2 ^ (53 + (m.log2 + e - 52)) := by
        rw [← zpow_add₀ two_ne_zero]
        congr 1
        ring
      _ ≤ 2 ^ (53 + max (m.log2 + e - 52) leastExponent) :=
        zpow_le_zpow_right₀ one_le_two (by omega)
      _ = 2 ^ 53 * 2 ^ max (m.log2 + e - 52) leastExponent := (two_pow_mul 53 _).symm
  · rcases Int.le_total (m.log2 + e - 52) leastExponent with small | large
    · exact .inl (Int.max_eq_right small)
    · right
      rw [Int.max_eq_left large, two_pow_mul, show ((52 : Nat) + (m.log2 + e - 52) : Int) = m.log2 + e by
        omega, zpow_add₀ two_ne_zero]
      gcongr

theorem shiftToTargetExponent_eq
    (low : e ≤ Format.binary64.targetExponent (totalExponent m e)) :
    shiftToTargetExponent Format.binary64 m e .exact =
      (ExtendedMantissa.ofMantissaAndAccuracy m .exact >>>
          (Format.binary64.targetExponent (totalExponent m e) - e).toNat,
        Format.binary64.targetExponent (totalExponent m e)) := by
  simp only [shiftToTargetExponent, shiftToExponent, Prod.mk.injEq, true_and]
  omega

theorem toNat_pack_infinite (s : Sign) (large : 972 ≤ e) (some : 0 < m) :
    (UnpackedFloat.pack Format.binary64 (.finite s m e some)).toNat =
      signPart s + infinityCode := by
  have bias : (Format.binary64.exponentBias : Int) = 1023 := rfl
  rw [UnpackedFloat.pack]
  simp only [bias]
  rw [if_pos (by simp; omega)]
  exact toNat_packComponents s _ _

/-- A mantissa of at most 53 bits is packed as it is, or as infinity. -/
theorem toNat_pack_placed (s : Sign) (small : m < 2 * hidden) (least : leastExponent ≤ e)
    (normal : hidden ≤ m ∨ e = leastExponent) :
    (UnpackedFloat.pack Format.binary64
      (if h : m = 0 then .zero s else .finite s m e (Nat.pos_of_ne_zero h))).toNat =
      signPart s + min ((e - leastExponent).toNat * hidden + m) infinityCode := by
  split
  · next zero =>
    subst zero
    rw [normal.resolve_left (by decide), Int.sub_self]
    exact toNat_packComponents s _ _
  · next some =>
    rcases lt_or_ge 971 e with large | few
    · rw [toNat_pack_infinite s large, Nat.min_eq_right]
      simp only [leastExponent, hidden, infinityCode] at *
      omega
    · have canonical : Canonical m e := ⟨small, least, few, normal⟩
      rw [toNat_pack_finite canonical]
      exact congrArg (signPart s + ·) (Nat.min_eq_left (encode_lt canonical).le).symm

theorem toNat_pack_rounded (s : Sign) (small : m ≤ 2 * hidden) (least : leastExponent ≤ e)
    (normal : hidden ≤ m ∨ e = leastExponent) :
    (UnpackedFloat.pack Format.binary64
      (if h : (shiftToTargetExponent Format.binary64 m e .exact).1.mantissa = 0 then .zero s
      else .finite s (shiftToTargetExponent Format.binary64 m e .exact).1.mantissa
        (shiftToTargetExponent Format.binary64 m e .exact).2 (Nat.pos_of_ne_zero h))).toNat =
      signPart s + min ((e - leastExponent).toNat * hidden + m) infinityCode := by
  rcases Nat.lt_or_eq_of_le small with less | rfl
  · have stays : (Format.binary64.targetExponent (totalExponent m e) - e).toNat = 0 := by
      have bits : m.log2 < 53 := by
        rcases Nat.eq_zero_or_pos m with rfl | some
        · decide
        · exact (Nat.log2_lt (Nat.ne_of_gt some)).mpr less
      rw [targetExponent_eq]
      omega
    have same : shiftToTargetExponent Format.binary64 m e .exact =
        (ExtendedMantissa.ofMantissaAndAccuracy m .exact, e) := by
      simp only [shiftToTargetExponent, shiftToExponent, stays]
      simp
      rfl
    simp only [same]
    exact toNat_pack_placed s less least normal
  · -- Rounded up to the next power of two, the mantissa has one bit too many.
    have next : Format.binary64.targetExponent (totalExponent (2 * hidden) e) = e + 1 := by
      rw [targetExponent_eq, show (2 * hidden).log2 = 53 by decide]
      omega
    have moved := shiftToTargetExponent_eq (m := 2 * hidden) (e := e) (by rw [next]; omega)
    rw [next, add_sub_cancel_left] at moved
    have halved : (ExtendedMantissa.ofMantissaAndAccuracy (2 * hidden) .exact >>>
        (1 : Int).toNat).mantissa = hidden :=
      ((approximates_one (2 * hidden)).shiftRight 1).mantissa
    simp only [moved, halved]
    rw [toNat_pack_placed s (by decide) (by omega) (.inl (Nat.le_refl _)),
      show (e + 1 - leastExponent).toNat = (e - leastExponent).toNat + 1 by omega, Nat.succ_mul,
      Nat.add_assoc, ← Nat.two_mul]

/-- Rounding a magnitude whose exponent is no larger than that of its ratio packs the nearest
number. -/
theorem toNat_pack_roundWithAccuracy (s : Sign) (some : 0 < m)
    (low : e ≤ Format.binary64.targetExponent (totalExponent m e)) {num den : Nat}
    (someDen : 0 < den) (is : (num : ℚ) / den = m * 2 ^ e) :
    (UnpackedFloat.pack Format.binary64 (roundWithAccuracy Format.binary64 s m e .exact)).toNat =
      signPart s + nearestCode num den := by
  have someNum := num_pos_of_value is (by positivity)
  have found := scaled_exponentOf someNum someDen
  have bounds := found.rounded someDen
  have exponent := found.unique (is ▸ scaled_targetExponent some)
  have shift : (target : Int) → e ≤ target → (m : ℚ) / (2 ^ (target - e).toNat : Nat) =
      m * 2 ^ e / 2 ^ target := by
    intro target low
    rw [Nat.cast_pow, Nat.cast_ofNat, ← zpow_natCast, Int.toNat_of_nonneg (by omega),
      zpow_sub₀ two_ne_zero]
    field_simp
  have rounded := ((approximates_one m).shiftRight
    (Format.binary64.targetExponent (totalExponent m e) - e).toNat).roundedMantissa
      (Nat.two_pow_pos _)
  rw [roundHalfEven_congr (Nat.two_pow_pos _)
    (Nat.mul_pos someDen (ratio_den_pos num two_pos (-exponentOf num den)))
    (by rw [scaled_value, is, exponent, shift _ low])] at rounded
  simp only [roundWithAccuracy, shiftToTargetExponent_eq low]
  rw [← rounded] at bounds
  refine (toNat_pack_rounded s bounds.1 (exponent ▸ found.least) (exponent ▸ bounds.2)).trans ?_
  rw [rounded, nearestCode, if_neg (Nat.ne_of_gt someNum), exponent]

theorem log2_mul_two_pow (some : 0 < m) (k : Nat) : (m * 2 ^ k).log2 = m.log2 + k := by
  induction k with
  | zero => rw [Nat.pow_zero, Nat.mul_one, Nat.add_zero]
  | succ k ih =>
    have filled := Nat.mul_pos some (Nat.two_pow_pos k)
    rw [Nat.pow_succ, ← Nat.mul_assoc, Nat.mul_comm, Nat.log2_two_mul (Nat.ne_of_gt filled), ih,
      Nat.add_assoc]

theorem normalize_positive (some : 0 < m) (s : Sign) :
    normalize Format.binary64 m e s = UnpackedFloat.round Format.binary64 .positive m e := by
  have above : compare (m : Int) 0 = .gt := Int.compare_eq_gt.mpr (by omega)
  rw [UnpackedFloat.normalize, above]
  rfl

theorem shiftLeft_value (m k : Nat) (e : Int) :
    ((m <<< k : Nat) * 2 ^ (e - k) : ℚ) = m * 2 ^ e := by
  rw [Nat.shiftLeft_eq, zpow_sub₀ two_ne_zero, zpow_natCast]
  push_cast
  field_simp

theorem toNat_pack_round (s : Sign) (some : 0 < m) {num den : Nat} (someDen : 0 < den)
    (is : (num : ℚ) / den = m * 2 ^ e) :
    (UnpackedFloat.pack Format.binary64 (UnpackedFloat.round Format.binary64 s m e)).toNat =
      signPart s + nearestCode num den := by
  simp only [UnpackedFloat.round, decreaseExponent]
  generalize lower : (e - Format.binary64.targetExponent (totalExponent m e)).toNat = k
  have bits : (m <<< k).log2 = m.log2 + k := by
    rw [Nat.shiftLeft_eq, log2_mul_two_pow some]
  apply toNat_pack_roundWithAccuracy s
  · rw [Nat.shiftLeft_eq]
    exact Nat.mul_pos some (Nat.two_pow_pos k)
  · rw [targetExponent_eq] at lower ⊢
    rw [bits]
    omega
  · exact someDen
  · rw [is, shiftLeft_value]

end

/-! ## Sums and products -/

inductive Represents (x : Float) : ℚ → Prop where
  | zero (is : unpacked x = .zero .positive) : Represents x 0
  | finite {m : Nat} {e : Int} (some : 0 < m) (canonical : Canonical m e)
    (is : unpacked x = .finite .positive m e some) : Represents x (m * 2 ^ e)

section

variable {x y : Float} {v w : ℚ} {num den : Nat}

theorem nearestCode_zero (someDen : 0 < den) (is : (num : ℚ) / den = 0) : nearestCode num den = 0 := by
  have nonzero : (den : ℚ) ≠ 0 := by exact_mod_cast Nat.ne_of_gt someDen
  have none : num = 0 := by
    rcases div_eq_zero_iff.mp is with none | none
    · exact_mod_cast none
    · exact absurd none nonzero
  rw [nearestCode, if_pos none]

theorem nearestCode_exact {m : Nat} {e : Int} (some : 0 < m) (small : m < 2 * hidden)
    (least : leastExponent ≤ e) (normal : hidden ≤ m ∨ e = leastExponent)
    (someDen : 0 < den) (is : (num : ℚ) / den = m * 2 ^ e) :
    nearestCode num den = min (encode m e) infinityCode := by
  have unit : (0 : ℚ) < 2 ^ e := by positivity
  have someNum := num_pos_of_value is (by positivity)
  have scaled : Scaled (num / den) e := by
    rw [is]
    refine ⟨least, ?_, ?_⟩
    · gcongr
      exact_mod_cast small
    · rcases normal with normal | least
      · right
        gcongr
        exact_mod_cast normal
      · exact .inl least
  have exponent := (scaled_exponentOf someNum someDen).unique scaled
  -- In units of its last place the ratio is a natural, which rounding leaves as it is.
  have whole : ((ratio num 2 (-e)).1 : ℚ) / (den * (ratio num 2 (-e)).2 : Nat) = m := by
    rw [scaled_value, is]
    field_simp
  have rounded : roundHalfEven (ratio num 2 (-e)).1 (den * (ratio num 2 (-e)).2) = m := by
    apply roundHalfEven_eq_of_near (Nat.mul_pos someDen (ratio_den_pos num two_pos (-e))) <;>
      rw [whole]
    · linarith
    · linarith
    · exact fun _ => ⟨by linarith, by linarith⟩
  rw [nearestCode, if_neg (Nat.ne_of_gt someNum), exponent]
  simp only [rounded]
  rfl

theorem nearestCode_of_canonical {m : Nat} {e : Int} (canonical : Canonical m e) (some : 0 < m)
    (someDen : 0 < den) (is : (num : ℚ) / den = m * 2 ^ e) : nearestCode num den = encode m e := by
  rw [nearestCode_exact some canonical.mantissa_lt canonical.le_exponent canonical.normal someDen is,
    Nat.min_eq_left (encode_lt canonical).le]

theorem Represents.ordered (exact : Represents x v) : magnitude x ≠ .nan := by
  rw [magnitude_eq]
  cases exact with
  | zero is | finite _ _ is => simp [is, unpackedMagnitude]

theorem represents_of_code {m : Nat} {e : Int} (canonical : Canonical m e)
    (encoded : code x = encode m e) : Represents x (m * 2 ^ e) := by
  have small : code x < signCode := by
    rw [encoded]
    exact (encode_lt canonical).trans (by decide)
  have known : magnitude x = .finite m e := by
    rw [magnitude, Nat.mod_eq_of_lt small, encoded, magnitudeOfCode_encode canonical]
  have positive := unpacked_eq_withSign x
  rw [if_pos small] at positive
  rw [magnitude_eq] at known
  generalize same : unpacked x = f at known positive
  cases f with
  | finite s m' e' some =>
    cases known
    exact .finite some canonical (same.trans positive)
  | zero s =>
    cases known
    rw [Nat.cast_zero, zero_mul]
    exact .zero (same.trans positive)
  | infinity s | notANumber => cases known

theorem Represents.code_eq (exact : Represents x v) (someDen : 0 < den)
    (is : (num : ℚ) / den = v) : code x = nearestCode num den := by
  rw [← toNat_pack_unpacked exact.ordered]
  cases exact with
  | zero unpacked =>
    rw [unpacked, nearestCode_zero someDen is]
    rfl
  | finite some canonical unpacked =>
    rw [unpacked, toNat_pack_finite canonical, nearestCode_of_canonical canonical some someDen is]
    exact Nat.zero_add _

theorem code_add (x y : Float) : code (x + y) =
    (UnpackedFloat.pack Format.binary64 (add Format.binary64 (unpacked x) (unpacked y))).toNat :=
  rfl

theorem code_mul (x y : Float) : code (x * y) =
    (UnpackedFloat.pack Format.binary64 (mul Format.binary64 (unpacked x) (unpacked y))).toNat :=
  rfl

/-- The sum of two numbers is the number nearest to the exact sum. -/
theorem Represents.add (left : Represents x v) (right : Represents y w) (someDen : 0 < den)
    (is : (num : ℚ) / den = v + w) : code (x + y) = nearestCode num den := by
  rw [code_add]
  cases left with
  | zero left =>
    rw [zero_add] at is
    rw [← right.code_eq someDen is, ← toNat_pack_unpacked right.ordered, left]
    cases right with
    | zero right | finite _ _ right =>
      rw [right]
      rfl
  | finite some canonical left =>
    cases right with
    | zero right =>
      rw [add_zero] at is
      have known := (Represents.finite some canonical left).code_eq someDen is
      rw [← toNat_pack_unpacked (Represents.finite some canonical left).ordered] at known
      rw [← known, right, left]
      rfl
    | finite some' canonical' right =>
      rename_i m e m' e'
      rw [left, right]
      -- Both mantissas are moved to the lower exponent and added there.
      have sum : ((m <<< (e - min e e').toNat + m' <<< (e' - min e e').toNat : Nat) : ℚ) *
          2 ^ min e e' = m * 2 ^ e + m' * 2 ^ e' := by
        have first := shiftLeft_value m (e - min e e').toNat e
        have second := shiftLeft_value m' (e' - min e e').toNat e'
        rw [show e - ((e - min e e').toNat : Int) = min e e' by omega] at first
        rw [show e' - ((e' - min e e').toNat : Int) = min e e' by omega] at second
        rw [← first, ← second]
        push_cast
        ring
      have filled : 0 < m <<< (e - min e e').toNat + m' <<< (e' - min e e').toNat := by
        rw [Nat.shiftLeft_eq]
        exact Nat.add_pos_left (Nat.mul_pos some (Nat.two_pow_pos _)) _
      have packed := toNat_pack_round .positive filled someDen (is.trans sum.symm)
      rw [← normalize_positive filled .positive] at packed
      exact packed.trans (Nat.zero_add _)

/-- The product of two numbers is the number nearest to the exact product. -/
theorem Represents.mul (left : Represents x v) (right : Represents y w) (someDen : 0 < den)
    (is : (num : ℚ) / den = v * w) : code (x * y) = nearestCode num den := by
  rw [code_mul]
  cases left with
  | zero left =>
    rw [zero_mul] at is
    rw [nearestCode_zero someDen is, left]
    cases right with
    | zero right | finite _ _ right =>
      rw [right]
      rfl
  | finite some canonical left =>
    cases right with
    | zero right =>
      rw [mul_zero] at is
      rw [nearestCode_zero someDen is, left, right]
      rfl
    | finite some' canonical' right =>
      rw [left, right]
      refine (toNat_pack_roundWithAccuracy .positive (Nat.mul_pos some some') ?_ someDen ?_).trans
        (Nat.zero_add _)
      · have filled := Nat.ne_of_gt (Nat.mul_pos some some')
        rw [targetExponent_eq]
        rcases canonical.normal with normal | least
        · have bits : 52 ≤ _ := (Nat.le_log2 filled).mpr (le_mul_of_le_of_one_le normal some')
          omega
        rcases canonical'.normal with normal | least'
        · have bits : 52 ≤ _ := (Nat.le_log2 filled).mpr (le_mul_of_one_le_of_le some normal)
          omega
        · simp only [leastExponent] at *
          omega
      · rw [is, zpow_add₀ two_ne_zero]
        push_cast
        ring

end

end StepScript.Number
