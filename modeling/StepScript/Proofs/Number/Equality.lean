import StepScript.Operator.Evaluate
import StepScript.Proofs.Number.ReadBack
import StepScript.Proofs.Number.Unpacking

/-! Numbers are equal when their texts are.

The text of a number reads back as the number, but for the sign of a zero, which the
text does not have. So two numbers have the same text exactly when they compare as
equal, and it makes no difference whether a program compares the one or the other.
-/

set_option autoImplicit false

namespace StepScript

namespace Number

variable {x y : Float}

/-! ## Zeros -/

theorem magnitude_zero : magnitude 0.0 = .finite 0 leastExponent := by
  decide +kernel

theorem eq_or_zero_of_beq (ordered : magnitude x ≠ .nan) (equal : (x == y) = true) :
    x = y ∨ magnitude x = .finite 0 leastExponent ∧ magnitude y = .finite 0 leastExponent := by
  rw [beq_eq_compare, beq_iff_eq] at equal
  rcases eq_or_zero_of_compare equal with same | ⟨s, t, left, right⟩
  · exact .inl (eq_of_unpacked_eq ordered same)
  · right
    simp only [magnitude_eq, left, right, unpackedMagnitude, and_self]

theorem beq_of_zero (left : magnitude x = .finite 0 leastExponent)
    (right : magnitude y = .finite 0 leastExponent) : (x == y) = true := by
  rw [magnitude_eq] at left right
  have zero {f : Float.Model.UnpackedFloat} (known : unpackedMagnitude f = .finite 0 leastExponent) :
      ∃ s, f = .zero s := by
    cases f with
    | zero s => exact ⟨s, rfl⟩
    | finite s mantissa exponent some =>
      cases known
      exact absurd some (Nat.lt_irrefl 0)
    | notANumber | infinity s => cases known
  obtain ⟨s, left⟩ := zero left
  obtain ⟨t, right⟩ := zero right
  rw [beq_eq_compare, left, right]
  rfl

theorem beq_zero_iff (ordered : magnitude x ≠ .nan) :
    (x == 0.0) = true ↔ magnitude x = .finite 0 leastExponent := by
  constructor
  · intro equal
    rcases eq_or_zero_of_beq ordered equal with rfl | ⟨zero, -⟩
    · exact magnitude_zero
    · exact zero
  · intro zero
    exact beq_of_zero zero magnitude_zero

theorem chars_of_zero (zero : magnitude x = .finite 0 leastExponent) : chars x = ['0'] := by
  simp [chars, zero]

/-! ## Reading back -/

theorem exists_startsNumber (finite : isFinite x = true) (positive : isNegative x = false) :
    ∃ c more, chars x = c :: more ∧ startsNumber c = true ∧ readUnsigned (c :: more) = x := by
  obtain ⟨decimal, laid, back⟩ := exists_laidOut (ne_nan_of_isFinite finite) positive
  rw [literalChars_of_isFinite finite] at laid
  obtain ⟨c, more, text, first⟩ := laid.exists_cons
  rw [text] at laid
  exact ⟨c, more, text, startsNumber_of_mem first, laid.readUnsigned.trans back⟩

theorem readChars_chars_of_finite (finite : isFinite x = true)
    (some : magnitude x ≠ .finite 0 leastExponent) : readChars (chars x) = x := by
  have ordered := ne_nan_of_isFinite finite
  cases negative : isNegative x with
  | false =>
    obtain ⟨c, more, text, starts, back⟩ := exists_startsNumber finite negative
    rw [text, readChars_of_startsNumber starts, back]
  | true =>
    have known := ordered_of_magnitude ordered
    have positive : isNegative (-x) = false := by
      rw [isNegative_neg known, negative]
      rfl
    obtain ⟨c, more, text, starts, back⟩ := exists_startsNumber (isFinite_neg finite) positive
    have signed : chars x = ['-'] ++ c :: more := by
      rcases chars_of_isNegative ordered negative with signed | plain
      · rw [signed, text]
        rfl
      · exact absurd plain.2 some
    rw [signed, readChars_of_sign .minus starts, if_pos rfl, back, neg_neg_of_ordered ordered]

theorem readChars_chars_of_infinite (infinite : magnitude x = .infinite) :
    readChars (chars x) = x := by
  have positive : code infinity = infinityCode := code_ofBits (by decide) (by decide)
  have ordered : code infinity % signCode ≤ infinityCode := by
    rw [positive]
    exact Nat.mod_le _ _
  apply eq_of_code_eq
  cases negative : isNegative x with
  | false =>
    have text : chars x = "Infinity".toList := by simp [chars, infinite, negative]
    have read : readChars "Infinity".toList = infinity := rfl
    rw [text, read, positive, code_eq x, code_of_infinite infinite, negative]
    rfl
  | true =>
    have text : chars x = "-Infinity".toList := by simp [chars, infinite, negative]
    have read : readChars "-Infinity".toList = -infinity := rfl
    have above : isNegative infinity = false := by
      rw [isNegative, positive]
      decide
    rw [text, read, code_neg ordered, above, positive, code_eq x, code_of_infinite infinite,
      negative]
    decide

/-- The text of a number reads back as the number, and that of both zeros as zero. -/
theorem readChars_chars (ordered : magnitude x ≠ .nan) :
    readChars (chars x) = if x == 0.0 then 0.0 else x := by
  by_cases zero : magnitude x = .finite 0 leastExponent
  · rw [if_pos ((beq_zero_iff ordered).mpr zero), chars_of_zero zero]
    rfl
  · rw [if_neg (mt (beq_zero_iff ordered).mp zero)]
    cases is : magnitude x with
    | nan => exact absurd is ordered
    | infinite => exact readChars_chars_of_infinite is
    | finite mantissa exponent => exact readChars_chars_of_finite (by simp [isFinite, is]) zero

theorem isNaN_readChars_chars (unordered : magnitude x = .nan) :
    (readChars (chars x)).isNaN = true := by
  have text : chars x = "NaN".toList := by simp [chars, unordered]
  have read : readChars "NaN".toList = nan := rfl
  rw [text, read]
  decide +kernel

theorem beq_readChars_chars (ordered : magnitude x ≠ .nan) : (readChars (chars x) == x) = true := by
  rw [readChars_chars ordered]
  split
  · next zero => exact beq_of_zero magnitude_zero ((beq_zero_iff ordered).mp zero)
  · exact beq_self ordered

/-- Numbers have the same text when they compare as equal, and only then. -/
theorem text_eq_iff (ordered : magnitude x ≠ .nan) (ordered' : magnitude y ≠ .nan) :
    text x = text y ↔ (x == y) = true := by
  constructor
  · intro same
    have read := congrArg readChars (String.ofList_injective same)
    rw [readChars_chars ordered, readChars_chars ordered'] at read
    split at read
    · next zero =>
      have zero' : (y == 0.0) = true := by
        split at read
        · next zero' => exact zero'
        · rw [← read]
          exact beq_self (by rw [magnitude_zero]; simp)
      exact beq_of_zero ((beq_zero_iff ordered).mp zero) ((beq_zero_iff ordered').mp zero')
    · next other =>
      split at read
      · exact absurd (read ▸ beq_self ordered) other
      · rw [read]
        exact beq_self ordered'
  · intro equal
    rcases eq_or_zero_of_beq ordered equal with rfl | ⟨zero, zero'⟩
    · rfl
    · rw [text, text, chars_of_zero zero, chars_of_zero zero']

end Number

/-! ## Comparing in a program -/

section

variable {σ : Type} (host : Host σ) (s : Store σ) (x y : Float)

theorem Store.looseEquals_number {x y : Float} (ordered : Number.magnitude x ≠ .nan)
    (ordered' : Number.magnitude y ≠ .nan) :
    s.looseEquals (.number x) (.number y) = (Value.number x).strictEquals (.number y) := by
  change (Number.text x == Number.text y) = (x == y)
  rw [Bool.eq_iff_iff, beq_iff_eq, Number.text_eq_iff ordered ordered']

/-- Numbers and their texts: the text of `nan` reads as `nan`, any other text reads back as
its number, zero without its sign, and numbers are loosely equal exactly when they are
strictly equal. -/
theorem Host.text_reads_back_and_equalities_agree :
    (x.isNaN = true → (Number.read (Number.text x)).isNaN = true) ∧
    (x.isNaN = false →
      Number.read (Number.text x) = (if x == 0.0 then 0.0 else x) ∧
      (Number.read (Number.text x) == x) = true) ∧
    (x.isNaN = false → y.isNaN = false →
      (host.binary .equal (.number x) (.number y)).run s =
        (host.binary .strictEqual (.number x) (.number y)).run s) := by
  have chars : Number.read (Number.text x) = Number.readChars (Number.chars x) := by
    rw [Number.read, Number.text, String.toList_ofList]
  rw [chars]
  refine ⟨fun unordered => ?_, fun ordered => ?_, fun ordered ordered' => ?_⟩
  · exact Number.isNaN_readChars_chars (Number.isNaN_iff.mp unordered)
  · have known := Number.ne_nan_of_isNaN ordered
    exact ⟨Number.readChars_chars known, Number.beq_readChars_chars known⟩
  · have same := s.looseEquals_number (Number.ne_nan_of_isNaN ordered)
      (Number.ne_nan_of_isNaN ordered')
    change (Except.ok (Value.boolean (s.looseEquals (.number x) (.number y))), s) = _
    rw [same]
    rfl

end

/-- Minus zero is written as zero and read as zero, to which it is equal in both ways. -/
theorem Host.minus_zero_reads_back :
    Number.nan.isNaN = true ∧ (Number.read (Number.text Number.nan)).isNaN = true ∧
      Number.read (Number.text (-0.0)) = 0.0 ∧
      (Number.read (Number.text (-0.0)) == -0.0) = true ∧
      ((Host.mk fun _ _ => pure .undefined).binary .equal (.number (-0.0)) (.number 0.0)).run
          (Store.empty ()) =
        ((Host.mk fun _ _ => pure .undefined).binary .strictEqual
          (.number (-0.0)) (.number 0.0)).run (Store.empty ()) := by
  have unordered : Number.nan.isNaN = true := by decide +kernel
  have ordered : (-0.0 : Float).isNaN = false := by decide +kernel
  have zero : ((-0.0 : Float) == 0.0) = true := by decide +kernel
  have atNan := text_reads_back_and_equalities_agree (Host.mk fun _ _ => pure .undefined)
    (Store.empty ()) Number.nan 0.0
  have atZero := text_reads_back_and_equalities_agree (Host.mk fun _ _ => pure .undefined)
    (Store.empty ()) (-0.0) 0.0
  refine ⟨unordered, atNan.1 unordered, ?_, (atZero.2.1 ordered).2,
    atZero.2.2 ordered (by decide +kernel)⟩
  rw [(atZero.2.1 ordered).1, if_pos zero]

end StepScript
