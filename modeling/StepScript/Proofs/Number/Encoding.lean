import Mathlib
import StepScript.Number.Binary

/-! Numbers and their encodings.

`Float` is a type of 64-bit encodings, in which all encodings of `nan` are one. These
lemmas say what its operations do to the encoding: making a number from it, and
negation. A finite magnitude determines the encoding without its sign.
-/

set_option autoImplicit false

namespace StepScript.Number

open Float.Model Float.Model.UnpackedFloat

def signPart : Sign → Nat
  | .negative => signCode
  | .positive => 0

theorem toNat_packComponents (s : Sign) (exponent : BitVec 11) (mantissa : BitVec 52) :
    (packComponents Format.binary64 s exponent mantissa).toNat =
      signPart s + exponent.toNat * hidden + mantissa.toNat := by
  have fraction := mantissa.isLt
  have field := exponent.isLt
  simp only [packComponents, BitVec.toNat_append]
  rw [← Nat.shiftLeft_add_eq_or_of_lt fraction, ← Nat.shiftLeft_add_eq_or_of_lt field,
    Nat.shiftLeft_eq, Nat.shiftLeft_eq]
  cases s with
  | negative =>
    change (1 * 2 ^ 11 + exponent.toNat) * 2 ^ 52 + mantissa.toNat = _
    simp only [signPart, signCode, hidden]
    omega
  | positive =>
    change (0 * 2 ^ 11 + exponent.toNat) * 2 ^ 52 + mantissa.toNat = _
    simp only [signPart, hidden]
    omega

theorem toNat_unpackMantissa (b : BitVec 64) :
    (@unpackMantissa Format.binary64 b).toNat = b.toNat % hidden := by
  simp [unpackMantissa, hidden]

theorem toNat_unpackExponent (b : BitVec 64) :
    (@unpackExponent Format.binary64 b).toNat = b.toNat / hidden % 2048 := by
  simp [unpackExponent, hidden, Nat.shiftRight_eq_div_pow]

theorem toNat_unpackSign (b : BitVec 64) :
    (@unpackSign Format.binary64 b).toNat = b.toNat / signCode := by
  have := b.isLt
  simp [unpackSign, signCode, Nat.shiftRight_eq_div_pow]
  omega


/-! ## Taking numbers apart and putting them together -/

/-- The numbers that an encoding can stand for. -/
inductive Unpacks (b : BitVec 64) : UnpackedFloat → Prop where
  | nan (unordered : infinityCode < b.toNat % signCode) : Unpacks b .notANumber
  | infinite (s : Sign) (is : b.toNat % signCode = infinityCode) : Unpacks b (.infinity s)
  | zero (s : Sign) (is : b.toNat % signCode = 0) : Unpacks b (.zero s)
  | subnormal (s : Sign) {fraction : Nat} (pos : 0 < fraction) (small : fraction < hidden)
    (is : b.toNat % signCode = fraction) : Unpacks b (.finite s fraction leastExponent pos)
  | normal (s : Sign) {field fraction : Nat} (pos : 0 < hidden + fraction) (some : 0 < field)
    (few : field < 2047) (small : fraction < hidden)
    (is : b.toNat % signCode = field * hidden + fraction) :
    Unpacks b (.finite s (hidden + fraction) (field - 1075) pos)

def withSign (s : Sign) : UnpackedFloat → UnpackedFloat
  | .infinity _ => .infinity s
  | .notANumber => .notANumber
  | .zero _ => .zero s
  | .finite _ mantissa exponent pos => .finite s mantissa exponent pos

theorem unpacks (b : BitVec 64) : Unpacks b (UnpackedFloat.unpack Format.binary64 b) := by
  have fraction := toNat_unpackMantissa b
  have field := toNat_unpackExponent b
  have small := (@unpackMantissa Format.binary64 b).isLt
  have split : b.toNat % signCode = b.toNat / hidden % 2048 * hidden + b.toNat % hidden := by
    simp only [signCode, hidden]
    omega
  rw [← fraction, ← field] at split
  -- The cases are those of the exponent's field: all ones, zero, and all others.
  unfold UnpackedFloat.unpack
  simp only
  split
  · next largest =>
    rw [largest] at split
    split
    · next zero =>
      rw [zero] at split
      exact .infinite _ split
    · next nonzero =>
      have some := BitVec.toNat_pos_of_ne_zero nonzero
      have all : (-1#11 : BitVec 11).toNat = 2047 := rfl
      apply Unpacks.nan
      rw [split, all, infinityCode]
      omega
  · next finite =>
    split
    · next least =>
      rw [least] at split
      split
      · next zero =>
        rw [zero] at split
        exact .zero _ split
      · next nonzero =>
        have zero : (0#11 : BitVec 11).toNat = 0 := rfl
        rw [zero, Nat.zero_mul, Nat.zero_add] at split
        have low : ((@unpackExponent Format.binary64 b).toNat : Int) -
            (Format.binary64.exponentBias + (52 : Nat)) + 1 = leastExponent := by
          rw [least]
          rfl
        rw [low]
        exact .subnormal _ (BitVec.toNat_pos_of_ne_zero nonzero) small split
    · next normal =>
      have some := BitVec.toNat_pos_of_ne_zero normal
      have few : (@unpackExponent Format.binary64 b).toNat < 2047 := by
        have bound := (@unpackExponent Format.binary64 b).isLt
        have other : (@unpackExponent Format.binary64 b).toNat ≠ 2047 :=
          fun all => finite (BitVec.eq_of_toNat_eq all)
        omega
      have whole : (1#1 ++ @unpackMantissa Format.binary64 b).toNat =
          hidden + (@unpackMantissa Format.binary64 b).toNat := by
        rw [BitVec.toNat_append, ← Nat.shiftLeft_add_eq_or_of_lt small]
        rfl
      simp only [whole]
      exact .normal _ _ some few small split

theorem toNat_pack_of_unpacks {b : BitVec 64} {f : UnpackedFloat} (unpacked : Unpacks b f)
    (s : Sign) (ordered : b.toNat % signCode ≤ infinityCode) :
    (UnpackedFloat.pack Format.binary64 (withSign s f)).toNat =
      signPart s + b.toNat % signCode := by
  cases unpacked with
  | nan unordered => exact absurd ordered (Nat.not_le.mpr unordered)
  | infinite _ is =>
    rw [is]
    exact toNat_packComponents s _ _
  | zero _ is =>
    rw [is]
    exact toNat_packComponents s _ _
  | @subnormal _ fraction pos small is =>
    -- Packing tells subnormal numbers by the length of their mantissa.
    have short : fraction.log2 + 1 ≠ Format.binary64.mantissaBits := by
      have bits : fraction.log2 < 52 := (Nat.log2_lt (Nat.ne_of_gt pos)).mpr small
      exact fun all => absurd all (Nat.ne_of_lt (Nat.succ_lt_succ bits))
    have packed := toNat_packComponents s 0#11 (BitVec.ofNat 52 fraction)
    rw [BitVec.toNat_ofNat, BitVec.toNat_ofNat,
      Nat.mod_eq_of_lt (show fraction < 2 ^ 52 from small)] at packed
    rw [is, withSign, UnpackedFloat.pack]
    simp only [if_neg short]
    rw [if_neg (by decide)]
    simpa using packed
  | @normal _ field fraction pos some few small is =>
    have bits : (hidden + fraction).log2 + 1 = Format.binary64.mantissaBits := by
      have log : (hidden + fraction).log2 = 52 :=
        (Nat.log2_eq_iff (Nat.ne_of_gt pos)).mpr ⟨Nat.le_add_right _ _, Nat.add_lt_add_left small _⟩
      rw [log]
      rfl
    have biased : ((field - 1075 : Int) + Format.binary64.exponentBias + (52 : Nat)).toNat =
        field := by
      have bias : (Format.binary64.exponentBias : Int) = 1023 := rfl
      rw [bias]
      omega
    have packed :=
      toNat_packComponents s (BitVec.ofNat 11 field) (BitVec.ofNat 52 (hidden + fraction))
    rw [BitVec.toNat_ofNat, BitVec.toNat_ofNat, Nat.mod_eq_of_lt (by omega)] at packed
    have cleared : (hidden + fraction) % 2 ^ 52 = fraction := by
      rw [hidden] at small ⊢
      omega
    rw [cleared] at packed
    rw [is, withSign, UnpackedFloat.pack]
    simp only [biased, if_pos bits]
    rw [if_neg (by simp; omega), packed]
    omega

theorem unpack_eq_withSign (b : BitVec 64) :
    UnpackedFloat.unpack Format.binary64 b =
      withSign (if b.toNat < signCode then .positive else .negative)
        (UnpackedFloat.unpack Format.binary64 b) := by
  have sign : Sign.ofBitVec (@unpackSign Format.binary64 b) =
      if b.toNat < signCode then .positive else .negative := by
    have bit := toNat_unpackSign b
    unfold Sign.ofBitVec
    by_cases low : b.toNat < signCode
    · rw [if_pos low, if_pos]
      apply BitVec.eq_of_toNat_eq
      exact bit.trans (Nat.div_eq_of_lt low)
    · rw [if_neg low, if_neg]
      intro zero
      rw [zero] at bit
      simp only [signCode] at bit low
      have none : (0#1 : BitVec 1).toNat = 0 := rfl
      omega
  rw [← sign]
  unfold UnpackedFloat.unpack
  simp only
  repeat' split
  all_goals rfl

/-! ## Encodings -/

/-- Encodings tell numbers apart. -/
theorem eq_of_code_eq {x y : Float} (same : code x = code y) : x = y := by
  obtain ⟨⟨bits, _⟩⟩ := x
  obtain ⟨⟨bits', _⟩⟩ := y
  have equal : bits = bits' := UInt64.toNat_inj.mp same
  subst equal
  rfl

theorem code_ofBits {n : Nat} (ordered : n % signCode ≤ infinityCode) (small : n < 2 * signCode) :
    code (Float.ofBits n.toUInt64) = n := by
  have bits : n.toUInt64.toBitVec.toNat = n := by
    simp only [signCode] at small
    simp [Nat.toUInt64]
    omega
  have packed := toNat_pack_of_unpacks (unpacks n.toUInt64.toBitVec)
    (if n.toUInt64.toBitVec.toNat < signCode then .positive else .negative) (by rwa [bits])
  rw [← unpack_eq_withSign, bits] at packed
  change (UnpackedFloat.pack Format.binary64
    (UnpackedFloat.unpack Format.binary64 n.toUInt64.toBitVec)).toNat = n
  rw [packed]
  split <;> simp only [signPart, signCode] at * <;> omega

theorem ordered_of_magnitude {x : Float} (known : magnitude x ≠ .nan) :
    code x % signCode ≤ infinityCode := by
  have small := Nat.mod_lt (code x) (by decide : 0 < signCode)
  simp only [magnitude, magnitudeOfCode] at known
  split at known
  · next largest =>
    split at known
    · next zero =>
      simp only [infinityCode, hidden] at *
      omega
    · exact absurd rfl known
  · next finite =>
    simp only [infinityCode, hidden, signCode] at *
    omega

theorem neg_withSign (s : Sign) (f : UnpackedFloat) :
    UnpackedFloat.neg (withSign s f) = withSign (-s) f := by
  cases f <;> rfl

theorem code_neg {x : Float} (ordered : code x % signCode ≤ infinityCode) :
    code (-x) = code x % signCode + if isNegative x then 0 else signCode := by
  have changed : code (-x) = (UnpackedFloat.pack Format.binary64 (UnpackedFloat.neg
      (UnpackedFloat.unpack Format.binary64 x.toBits.toBitVec))).toNat := rfl
  rw [changed, unpack_eq_withSign, neg_withSign,
    toNat_pack_of_unpacks (unpacks x.toBits.toBitVec) _ ordered, Nat.add_comm]
  change code x % signCode +
    signPart (-(if code x < signCode then Sign.positive else Sign.negative)) = _
  by_cases low : code x < signCode
  · have positive : isNegative x = false := by simp [isNegative, low]
    rw [if_pos low, positive]
    rfl
  · have negative : isNegative x = true := by simpa [isNegative] using low
    rw [if_neg low, negative]
    rfl

theorem isNegative_neg {x : Float} (ordered : code x % signCode ≤ infinityCode) :
    isNegative (-x) = !isNegative x := by
  have small := Nat.mod_lt (code x) (by decide : 0 < signCode)
  have changed := code_neg ordered
  cases negative : isNegative x with
  | false =>
    rw [negative] at changed
    have high : signCode ≤ code (-x) := by
      rw [changed]
      exact Nat.le_add_left _ _
    simpa [isNegative] using high
  | true =>
    rw [negative] at changed
    have low : code (-x) < signCode := by
      rw [changed]
      exact small
    simpa [isNegative] using low

theorem magnitude_neg {x : Float} (ordered : code x % signCode ≤ infinityCode) :
    magnitude (-x) = magnitude x := by
  have same : code (-x) % signCode = code x % signCode := by
    rw [code_neg ordered]
    cases isNegative x with
    | false => exact (Nat.add_mod_right _ _).trans (Nat.mod_mod _ _)
    | true => exact Nat.mod_mod _ _
  rw [magnitude, same]
  rfl

/-! ## Finite magnitudes -/

/-- The mantissas and exponents of finite numbers. Below the least mantissa of normal
numbers there is only the least exponent. -/
structure Canonical (mantissa : Nat) (exponent : Int) : Prop where
  mantissa_lt : mantissa < 2 * hidden
  le_exponent : leastExponent ≤ exponent
  exponent_le : exponent ≤ 971
  normal : hidden ≤ mantissa ∨ exponent = leastExponent

def encode (mantissa : Nat) (exponent : Int) : Nat :=
  (exponent - leastExponent).toNat * hidden + mantissa

theorem encode_lt {mantissa : Nat} {exponent : Int} (canonical : Canonical mantissa exponent) :
    encode mantissa exponent < infinityCode := by
  obtain ⟨small, low, high, -⟩ := canonical
  simp only [encode, infinityCode, leastExponent, hidden] at *
  omega

theorem finite_of_magnitudeOfCode {n mantissa : Nat} {exponent : Int} (small : n < signCode)
    (is : magnitudeOfCode n = .finite mantissa exponent) :
    Canonical mantissa exponent ∧ n = encode mantissa exponent := by
  have split := Nat.div_add_mod n hidden
  have below := Nat.mod_lt n (by decide : 0 < hidden)
  have fields : n / hidden < 2048 := Nat.div_lt_of_lt_mul small
  simp only [magnitudeOfCode] at is
  generalize n / hidden = field at *
  generalize n % hidden = fraction at *
  split at is
  · split at is <;> cases is
  · next finite =>
    split at is
    · next least =>
      cases is
      rw [least, Nat.mul_zero, Nat.zero_add] at split
      constructor
      · exact ⟨by omega, Int.le_refl _, by decide, .inr rfl⟩
      · rw [encode, Int.sub_self]
        simpa using split.symm
    · next normal =>
      cases is
      have places : (field - 1075 - leastExponent : Int).toNat = field - 1 := by
        simp only [leastExponent]
        omega
      constructor
      · refine ⟨by omega, ?_, by omega, .inl (Nat.le_add_right _ _)⟩
        simp only [leastExponent]
        omega
      · rw [encode, places, ← Nat.add_assoc, ← Nat.succ_mul, Nat.succ_eq_add_one,
          Nat.sub_add_cancel (Nat.pos_of_ne_zero normal), Nat.mul_comm]
        exact split.symm

theorem finite_of_magnitude {x : Float} {mantissa : Nat} {exponent : Int}
    (is : magnitude x = .finite mantissa exponent) :
    Canonical mantissa exponent ∧ code x % signCode = encode mantissa exponent :=
  finite_of_magnitudeOfCode (Nat.mod_lt _ (by decide)) is

theorem code_of_infinite {x : Float} (is : magnitude x = .infinite) :
    code x % signCode = infinityCode := by
  have split := Nat.div_add_mod (code x % signCode) hidden
  simp only [magnitude, magnitudeOfCode] at is
  split at is
  · next last =>
    split at is
    · next whole =>
      rw [last, whole] at split
      rw [← split]
      rfl
    · cases is
  · split at is <;> cases is

end StepScript.Number
