import StepScript.Proofs.Number.Encoding

/-! What numbers stand for.

An operation on numbers takes them apart, works on what they stand for and packs the
result. These lemmas relate that to magnitudes: a number is known by what it stands for,
a canonical magnitude is packed as its encoding, and two numbers compare as equal when
they stand for the same or are both zero.
-/

set_option autoImplicit false

namespace StepScript.Number

open Float.Model Float.Model.UnpackedFloat

/-! ## Magnitudes of encodings -/

theorem magnitudeOfCode_of_lt {n : Nat} (small : n < signCode) (unordered : infinityCode < n) :
    magnitudeOfCode n = .nan := by
  simp only [signCode, infinityCode, hidden] at small unordered
  have field : n / hidden = 2047 := by
    rw [hidden]
    omega
  have fraction : n % hidden ≠ 0 := by
    rw [hidden]
    omega
  rw [magnitudeOfCode]
  simp only [field, if_true, if_neg fraction]

theorem magnitudeOfCode_fields {field fraction : Nat} (few : field < 2047)
    (small : fraction < hidden) :
    magnitudeOfCode (field * hidden + fraction) =
      if field = 0 then .finite fraction leastExponent
      else .finite (hidden + fraction) (field - 1075) := by
  have quotient : (field * hidden + fraction) / hidden = field := by
    rw [Nat.add_comm, Nat.add_mul_div_right _ _ (by decide), Nat.div_eq_of_lt small, Nat.zero_add]
  have rest : (field * hidden + fraction) % hidden = fraction := by
    rw [Nat.add_comm, Nat.add_mul_mod_self_right, Nat.mod_eq_of_lt small]
  rw [magnitudeOfCode]
  simp only [quotient, rest]
  rw [if_neg (Nat.ne_of_lt few)]

theorem magnitudeOfCode_encode {mantissa : Nat} {exponent : Int}
    (canonical : Canonical mantissa exponent) :
    magnitudeOfCode (encode mantissa exponent) = .finite mantissa exponent := by
  obtain ⟨small, low, high, normal⟩ := canonical
  by_cases short : mantissa < hidden
  · have least : exponent = leastExponent := normal.resolve_left (Nat.not_le.mpr short)
    rw [encode, least, Int.sub_self]
    exact magnitudeOfCode_fields (by decide) short
  · -- The leading bit of the mantissa is counted to the exponent's field.
    obtain ⟨fraction, rfl⟩ := Nat.exists_eq_add_of_le (Nat.not_lt.mp short)
    have fields : encode (hidden + fraction) exponent =
        ((exponent - leastExponent).toNat + 1) * hidden + fraction := by
      rw [encode, Nat.succ_mul, Nat.add_assoc]
    have places : (((exponent - leastExponent).toNat + 1 : Nat) : Int) - 1075 = exponent := by
      simp only [leastExponent] at *
      omega
    rw [fields, magnitudeOfCode_fields (by simp only [leastExponent] at *; omega) (by omega),
      if_neg (Nat.succ_ne_zero _), places]

/-! ## Unpacked numbers -/

def unpacked (x : Float) : UnpackedFloat :=
  x.toModel.unpack

theorem unpacks_unpacked (x : Float) : Unpacks x.toBits.toBitVec (unpacked x) :=
  unpacks x.toBits.toBitVec

theorem unpacked_eq_withSign (x : Float) :
    unpacked x = withSign (if code x < signCode then .positive else .negative) (unpacked x) :=
  unpack_eq_withSign x.toBits.toBitVec

def unpackedMagnitude : UnpackedFloat → Magnitude
  | .notANumber => .nan
  | .infinity _ => .infinite
  | .zero _ => .finite 0 leastExponent
  | .finite _ mantissa exponent _ => .finite mantissa exponent

theorem magnitude_eq (x : Float) : magnitude x = unpackedMagnitude (unpacked x) := by
  have unpacks := unpacks_unpacked x
  have small := Nat.mod_lt (code x) (by decide : 0 < signCode)
  change magnitudeOfCode (x.toBits.toBitVec.toNat % signCode) = _
  change x.toBits.toBitVec.toNat % signCode < signCode at small
  generalize unpacked x = f at *
  cases unpacks with
  | nan unordered => exact magnitudeOfCode_of_lt small unordered
  | infinite s is | zero s is =>
    rw [is]
    rfl
  | @subnormal s fraction pos few is =>
    have fields := magnitudeOfCode_fields (by decide : 0 < 2047) few
    rw [Nat.zero_mul, Nat.zero_add] at fields
    rw [is, fields]
    rfl
  | normal s pos some few fits is =>
    rw [is, magnitudeOfCode_fields few fits, if_neg (Nat.ne_of_gt some)]
    rfl

theorem isNaN_iff {x : Float} : x.isNaN = true ↔ magnitude x = .nan := by
  rw [magnitude_eq]
  change (unpacked x).isNaN = true ↔ _
  cases unpacked x <;> simp [UnpackedFloat.isNaN, unpackedMagnitude]

theorem ne_nan_of_isNaN {x : Float} (ordered : x.isNaN = false) : magnitude x ≠ .nan :=
  fun is => Bool.false_ne_true (ordered.symm.trans (isNaN_iff.mpr is))

theorem toNat_pack_unpacked {x : Float} (ordered : magnitude x ≠ .nan) :
    (UnpackedFloat.pack Format.binary64 (unpacked x)).toNat = code x := by
  have bits : code x < 2 * signCode := x.toBits.toBitVec.isLt
  rw [unpacked_eq_withSign,
    toNat_pack_of_unpacks (unpacks_unpacked x) _ (ordered_of_magnitude ordered)]
  change signPart _ + code x % signCode = code x
  split <;> simp only [signPart, signCode] at * <;> omega

theorem eq_of_unpacked_eq {x y : Float} (ordered : magnitude x ≠ .nan)
    (same : unpacked x = unpacked y) : x = y := by
  have ordered' : magnitude y ≠ .nan := by rwa [magnitude_eq, ← same, ← magnitude_eq]
  apply eq_of_code_eq
  rw [← toNat_pack_unpacked ordered, same, toNat_pack_unpacked ordered']

theorem toNat_pack_finite {mantissa : Nat} {exponent : Int}
    (canonical : Canonical mantissa exponent) (s : Sign) (some : 0 < mantissa) :
    (UnpackedFloat.pack Format.binary64 (.finite s mantissa exponent some)).toNat =
      signPart s + encode mantissa exponent := by
  have small := encode_lt canonical
  have whole : code (Float.ofBits (encode mantissa exponent).toUInt64) =
      encode mantissa exponent :=
    code_ofBits (by
      rw [Nat.mod_eq_of_lt (small.trans (by decide))]
      exact small.le) (small.trans (by decide))
  generalize Float.ofBits (encode mantissa exponent).toUInt64 = x at whole
  have positive : code x % signCode = encode mantissa exponent := by
    rw [whole, Nat.mod_eq_of_lt (small.trans (by decide))]
  have known : magnitude x = .finite mantissa exponent := by
    rw [magnitude, positive, magnitudeOfCode_encode canonical]
  have packed := toNat_pack_of_unpacks (unpacks_unpacked x) s
    (ordered_of_magnitude (by rw [known]; simp))
  rw [magnitude_eq] at known
  have apart : withSign s (unpacked x) = .finite s mantissa exponent some := by
    generalize unpacked x = f at known
    cases f with
    | finite t mantissa' exponent' pos =>
      cases known
      rfl
    | zero t =>
      cases known
      exact absurd some (Nat.lt_irrefl 0)
    | infinity t | notANumber => cases known
  rw [apart] at packed
  rw [packed]
  exact congrArg (signPart s + ·) positive

/-! ## Comparing numbers -/

theorem beq_eq_compare (x y : Float) :
    (x == y) = ((unpacked x).compare (unpacked y) == some .eq) :=
  rfl

theorem compare_self {f : UnpackedFloat} (ordered : f ≠ .notANumber) :
    f.compare f = some .eq := by
  cases f with
  | notANumber => exact absurd rfl ordered
  | infinity s => cases s <;> rfl
  | zero s => rfl
  | finite s mantissa exponent pos => cases s <;> simp [UnpackedFloat.compare]

/-- Only zeros are equal without being the same. -/
theorem eq_or_zero_of_compare {f g : UnpackedFloat} (equal : f.compare g = some .eq) :
    f = g ∨ ∃ s t, f = .zero s ∧ g = .zero t := by
  cases f with
  | notANumber => simp [UnpackedFloat.compare] at equal
  | infinity s =>
    cases g with
    | infinity t => cases s <;> cases t <;> first | exact .inl rfl | cases equal
    | _ => cases s <;> cases equal
  | zero s =>
    cases g with
    | zero t => exact .inr ⟨s, t, rfl, rfl⟩
    | notANumber => cases equal
    | infinity t | finite t => cases t <;> cases equal
  | finite s mantissa exponent pos =>
    cases g with
    | finite t mantissa' exponent' pos' =>
      left
      cases s <;> cases t <;> simp [UnpackedFloat.compare, Ordering.then_eq_eq] at equal ⊢ <;> grind
    | notANumber => cases s <;> cases equal
    | infinity t => cases s <;> cases t <;> cases equal
    | zero t => cases s <;> cases equal

theorem beq_self {x : Float} (ordered : magnitude x ≠ .nan) : (x == x) = true := by
  rw [magnitude_eq] at ordered
  rw [beq_eq_compare, compare_self fun is => ordered (by rw [is]; rfl)]
  rfl

end StepScript.Number
