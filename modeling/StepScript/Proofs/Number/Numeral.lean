import StepScript.Proofs.Number.ReadBack

/-! Numerals.

A numeral is hexadecimal digits behind their mark, or a layout of decimal digits. What is
found at the beginning of a text is a numeral whatever follows it, and a numeral is read as
its value.
-/

set_option autoImplicit false

namespace StepScript.Number

def AllHexDigits (chars : List Char) : Prop :=
  ∀ c ∈ chars, (hexDigit? c).isSome = true

/-- The texts that stand for numbers in a program, and the numbers. -/
inductive Numeral : List Char → Float → Prop where
  | hexadecimal {mark : Char} {digits : List Char} (markIs : isHexMark mark = true)
    (all : AllHexDigits digits) (some : digits ≠ []) :
    Numeral ('0' :: mark :: digits) (hexValue (digits.filterMap hexDigit?))
  | decimal {text : List Char} {decimal : Decimal} (laid : LaidOut text decimal) :
    Numeral text decimal.toNumber

/-! ## Hexadecimal digits -/

theorem AllHexDigits.length_filterMap {digits : List Char} (all : AllHexDigits digits) :
    (digits.filterMap hexDigit?).length = digits.length :=
  List.filterMap_length_eq_length.mpr all

theorem AllHexDigits.hexDigits {digits : List Char} (all : AllHexDigits digits) :
    hexDigits digits = digits.filterMap hexDigit? := by
  rw [Number.hexDigits, List.takeWhile_eq_self_iff.mpr all]

theorem AllHexDigits.filterMap_ne_nil {digits : List Char} (all : AllHexDigits digits)
    (some : digits ≠ []) : digits.filterMap hexDigit? ≠ [] := by
  rw [← List.length_pos_iff, all.length_filterMap]
  exact List.length_pos_iff.mpr some

theorem hexPrefix_eq {mark : Char} {rest : List Char} (markIs : isHexMark mark = true)
    (some : hexDigits rest ≠ []) : hexPrefix ('0' :: mark :: rest) = .some (hexDigits rest) := by
  unfold isHexMark at markIs
  rw [hexPrefix, if_pos markIs]
  split
  · next none => exact absurd none some
  · rfl

theorem AllHexDigits.hexPrefix {mark : Char} {digits : List Char} (all : AllHexDigits digits)
    (markIs : isHexMark mark = true) (some : digits ≠ []) :
    Number.hexPrefix ('0' :: mark :: digits) = .some (digits.filterMap hexDigit?) := by
  have filled := all.filterMap_ne_nil some
  rw [← all.hexDigits] at filled ⊢
  exact hexPrefix_eq markIs filled

theorem exists_of_hexPrefix {chars : List Char} {values : List Nat}
    (found : hexPrefix chars = some values) :
    ∃ mark digits rest, chars = '0' :: mark :: (digits ++ rest) ∧ isHexMark mark = true ∧
      AllHexDigits digits ∧ digits ≠ [] ∧ values = digits.filterMap hexDigit? := by
  unfold hexPrefix at found
  split at found
  · next mark rest =>
    split at found
    · next markIs =>
      refine ⟨mark, rest.takeWhile fun c => (hexDigit? c).isSome,
        rest.dropWhile fun c => (hexDigit? c).isSome, ?_, markIs,
        fun c member => List.mem_takeWhile_imp (p := fun c => (hexDigit? c).isSome) member, ?_⟩
      · rw [List.takeWhile_append_dropWhile]
      · split at found
        · cases found
        · next filled =>
          cases found
          refine ⟨?_, rfl⟩
          intro none
          apply filled
          rw [hexDigits, none]
          rfl
    · cases found
  · cases found

theorem readChars_hexadecimal {mark : Char} {digits : List Char} (markIs : isHexMark mark = true)
    (all : AllHexDigits digits) (some : digits ≠ []) :
    readChars ('0' :: mark :: digits) = hexValue (digits.filterMap hexDigit?) := by
  change readUnsigned ('0' :: mark :: digits) = _
  rw [readUnsigned, all.hexPrefix markIs some]

/-! ## Decimal digits -/

theorem allDigits_takeWhile (chars : List Char) : AllDigits (chars.takeWhile Char.isDigit) :=
  fun _ member => List.mem_takeWhile_imp member

theorem pointPrefix_split (chars : List Char) :
    ∃ point, chars = point ++ (pointPrefix chars).2.2 ∧
      Fraction (pointPrefix chars).2.1 point ∧
      point.length = (pointPrefix chars).1 + (pointPrefix chars).2.1.length := by
  unfold pointPrefix
  split
  · next rest =>
    refine ⟨'.' :: rest.takeWhile Char.isDigit, ?_, .point (allDigits_takeWhile rest), ?_⟩
    · simp [List.takeWhile_append_dropWhile]
    · simp [Nat.add_comm]
  · exact ⟨[], rfl, .none, rfl⟩

theorem signPrefix_split (chars : List Char) :
    ∃ sign, chars = sign ++ (signPrefix chars).2.2 ∧ Sign (signPrefix chars).1 sign ∧
      sign.length = (signPrefix chars).2.1 := by
  unfold signPrefix
  split
  · exact ⟨['-'], rfl, .minus, rfl⟩
  · exact ⟨['+'], rfl, .plus, rfl⟩
  · exact ⟨[], rfl, .none, rfl⟩

theorem powerPrefix_split (chars : List Char) :
    ∃ mark rest, chars = mark ++ rest ∧ Power (powerPrefix chars).1 mark ∧
      mark.length = (powerPrefix chars).2 := by
  unfold powerPrefix
  split
  · next mark rest =>
    split
    · next markIs =>
      obtain ⟨sign, split, signed, length⟩ := signPrefix_split rest
      generalize signPrefix rest = found at *
      obtain ⟨negative, count, rest⟩ := found
      simp only at split signed length ⊢
      split
      · exact ⟨[], _, rfl, .none, rfl⟩
      · next filled =>
        refine ⟨mark :: (sign ++ rest.takeWhile Char.isDigit), rest.dropWhile Char.isDigit, ?_,
          .marked markIs signed (allDigits_takeWhile rest) (by simpa using filled), ?_⟩
        · simp [split, List.takeWhile_append_dropWhile]
        · simp [length]
          omega
    · exact ⟨[], _, rfl, .none, rfl⟩
  · exact ⟨[], _, rfl, .none, rfl⟩

/-- What is found at the beginning of a text is a layout. -/
theorem exists_of_decimalPrefix {chars : List Char} {decimal : Decimal} {length : Nat}
    (found : decimalPrefix chars = some (decimal, length)) :
    ∃ text rest, chars = text ++ rest ∧ LaidOut text decimal ∧ text.length = length := by
  obtain ⟨point, splitPoint, behind, pointLength⟩ :=
    pointPrefix_split (chars.dropWhile Char.isDigit)
  rw [decimalPrefix_eq_parts] at found
  -- The text is whole digits, a point with digits, a power and what is behind, in this order.
  generalize pointPrefix (chars.dropWhile Char.isDigit) = afterWhole at *
  obtain ⟨dot, fraction, afterFraction⟩ := afterWhole
  obtain ⟨mark, rest, splitPower, raised, markLength⟩ := powerPrefix_split afterFraction
  simp only at splitPoint behind pointLength found
  split at found
  · cases found
  · next filled =>
    cases found
    refine ⟨chars.takeWhile Char.isDigit ++ (point ++ mark), rest, ?_,
      .intro (allDigits_takeWhile chars) (by simpa using filled) behind raised, ?_⟩
    · rw [List.append_assoc, List.append_assoc, ← splitPower, ← splitPoint,
        List.takeWhile_append_dropWhile]
    · simp only [List.length_append, pointLength, markLength]
      omega

/-! ## Numerals -/

/-- A numeral is read as its value. -/
theorem Numeral.readChars {text : List Char} {x : Float} (numeral : Numeral text x) :
    Number.readChars text = x := by
  cases numeral with
  | hexadecimal markIs all some => exact readChars_hexadecimal markIs all some
  | decimal laid => exact laid.readChars

theorem Numeral.exists_cons {text : List Char} {x : Float} (numeral : Numeral text x) :
    ∃ c more, text = c :: more ∧ c ∈ firstChars := by
  cases numeral with
  | hexadecimal markIs all some => exact ⟨'0', _, rfl, by decide⟩
  | decimal laid => exact laid.exists_cons

end StepScript.Number
