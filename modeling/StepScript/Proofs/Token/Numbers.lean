import StepScript.Proofs.Number.Reading
import StepScript.Proofs.Token.Places
import StepScript.Proofs.Token.Writing

/-! Number tokens.

The lexer takes the longest piece that has one of three forms: hexadecimal digits behind a
mark, digits perhaps with a point, or a point with digits. Reading knows nothing of these
forms, but takes just such a piece whole, and what it reads is a number from zero on.
-/

set_option autoImplicit false

namespace StepScript

open Number

inductive NumberForm : List Char → Prop where
  | hexadecimal {mark : Char} {digits : List Char} (markIs : isHexMark mark = true)
    (all : AllHexDigits digits) (some : digits ≠ []) : NumberForm ('0' :: mark :: digits)
  | digits {whole fraction point mark : List Char} {power : Int} (all : AllDigits whole)
    (some : whole ≠ []) (behind : Fraction fraction point) (raised : Power power mark) :
    NumberForm (whole ++ (point ++ mark))
  | point {fraction mark : List Char} {power : Int} (all : AllDigits fraction)
    (some : fraction ≠ []) (raised : Power power mark) : NumberForm ('.' :: (fraction ++ mark))

theorem numberForm_iff {text : List Char} : NumberForm text ↔
    (∃ mark digits, text = '0' :: mark :: digits ∧ isHexMark mark = true ∧ AllHexDigits digits ∧
      digits ≠ []) ∨ IsDecimal text := by
  constructor
  · intro form
    cases form with
    | hexadecimal markIs all some => exact .inl ⟨_, _, rfl, markIs, all, some⟩
    | digits all some behind raised => exact .inr ⟨_, .intro all (by simp [some]) behind raised⟩
    | @point fraction mark power all some raised =>
      have none : AllDigits [] := List.forall_mem_nil _
      exact .inr ⟨_, .intro none some (.point all) raised⟩
  · rintro (⟨mark, digits, rfl, markIs, all, some⟩ | ⟨_, laid⟩)
    · exact .hexadecimal markIs all some
    · obtain ⟨all, some, behind, raised⟩ := laid
      next whole fraction point mark power =>
      by_cases none : whole = []
      · subst none
        cases behind with
        | none => exact absurd rfl some
        | point digits => exact .point digits some raised
      · exact .digits all none behind raised

theorem numberForm_of_numeral {text : List Char} {x : Float} (numeral : Numeral text x) :
    NumberForm text := by
  rw [numberForm_iff]
  cases numeral with
  | hexadecimal markIs all some => exact .inl ⟨_, _, rfl, markIs, all, some⟩
  | decimal laid => exact .inr ⟨_, laid⟩

/-! ## The longest form -/

theorem Number.AllHexDigits.length_le {digits : List Char} (all : AllHexDigits digits)
    (rest : List Char) : digits.length ≤ (Number.hexDigits (digits ++ rest)).length := by
  rw [Number.hexDigits, List.takeWhile_append_of_pos all, List.filterMap_append,
    List.length_append, all.length_filterMap]
  exact Nat.le_add_right _ _

theorem longest_of_hexPrefix {chars : List Char} {values : List Nat}
    (found : hexPrefix chars = some values) : Longest NumberForm chars (values.length + 2) := by
  obtain ⟨mark, digits, rest, rfl, markIs, all, some, rfl⟩ := exists_of_hexPrefix found
  rw [all.length_filterMap]
  refine ⟨by simp, fun _ => ?_, fun m bound form => ?_⟩
  · have front : ('0' :: mark :: (digits ++ rest)).take (digits.length + 2) =
        '0' :: mark :: digits := by simp
    rw [front]
    exact .hexadecimal markIs all some
  rcases numberForm_iff.mp form with ⟨other, more, front, markIs', all', some'⟩ | ⟨_, laid⟩
  · -- The digits of the other piece are among those that are found.
    have split := List.take_append_drop m ('0' :: mark :: (digits ++ rest))
    have length := List.length_take_of_le bound
    rw [front] at split length
    have longer := all'.length_le (('0' :: mark :: (digits ++ rest)).drop m)
    have filled := List.ne_nil_of_length_pos
      (Nat.lt_of_lt_of_le (List.length_pos_iff.mpr some') longer)
    have same := hexPrefix_eq markIs' filled
    rw [List.cons_append, List.cons_append] at split
    rw [split, found] at same
    rw [← Option.some.inj same, all.length_filterMap] at longer
    simp only [List.length_cons] at length
    omega
  · -- A decimal has no mark, so it ends in front of this one.
    by_contra longer
    obtain ⟨k, rfl⟩ : ∃ k, m = k + 2 := ⟨m - 2, by omega⟩
    have none := laid.isHexMark mark (by simp)
    rw [markIs] at none
    cases none

theorem longest_of_no_hexPrefix {chars : List Char} (none : hexPrefix chars = none) :
    Longest NumberForm chars (decimalLength chars) := by
  obtain ⟨inside, holds, most⟩ := longest_decimalLength chars
  refine ⟨inside, fun some => numberForm_iff.mpr (.inr (holds some)), fun m bound form => ?_⟩
  rcases numberForm_iff.mp form with ⟨mark, digits, front, markIs, all, some⟩ | isDecimal
  · have hex := hexPrefix_take none m
    rw [front, all.hexPrefix markIs some] at hex
    cases hex
  · exact most m bound isDecimal

/-- The lexer finds the longest piece that has the form of a number. -/
theorem longest_numberLength? (chars : List Char) :
    Longest NumberForm chars ((numberLength? chars).getD 0) := by
  unfold numberLength?
  split
  · next values found => exact longest_of_hexPrefix found
  · next none => exact longest_of_no_hexPrefix none

/-! ## Tokens -/

/-- What is bitten off as a number is the longest piece that has a form. -/
theorem longest_of_bite {c : Char} {tail rest : List Char} {x : Float}
    (bitten : bite c (tail ++ rest) = .lexeme (.number x) tail.length)
    (numeral : Numeral (c :: tail) x) :
    Longest NumberForm (c :: (tail ++ rest)) (tail.length + 1) := by
  have longest := longest_numberLength? (c :: (tail ++ rest))
  have front : (c :: (tail ++ rest)).take (tail.length + 1) = c :: tail := by simp
  have longer := longest.most (tail.length + 1) (by simp)
    (front ▸ numberForm_of_numeral numeral)
  obtain ⟨_, _, same, first⟩ := numeral.exists_cons
  obtain rfl := (List.cons.inj same).1
  -- The numeral has a form itself, so a length is found, and it is the one that is bitten off.
  cases found : numberLength? (c :: (tail ++ rest)) with
  | none =>
    rw [found] at longer
    cases longer
  | some length =>
    rw [found, Option.getD_some] at longest longer
    rw [bite_number first found, biteNumber] at bitten
    split at bitten
    · have extra : length - 1 = tail.length := congrArg Bite.extra bitten
      rwa [show tail.length + 1 = length by omega]
    · cases bitten

theorem exists_of_number {source : String} {x : Float} {span : Span}
    (member : .ok ⟨.number x, span⟩ ∈ lexResults source) :
    ∃ front text back, source.toList = front ++ (text ++ back) ∧
      span = .ofRange (byteLength front) (byteLength (front ++ text)) ∧
      Longest NumberForm (text ++ back) text.length ∧ Numeral text x := by
  obtain ⟨front, c, rest, found, split, result, located⟩ := exists_bite_of_mem member
  have sound := sound_bite c rest
  generalize bitten : bite c rest = piece at sound result located
  cases sound with
  | fault =>
    cases result
    cases located
  | passed => cases result
  | @lexeme l _ tail rest written =>
    cases result
    cases located
    cases written with
    | number numeral =>
      refine ⟨front, c :: tail, rest, split, ?_, longest_of_bite bitten numeral, numeral⟩
      have text : (c :: (tail ++ rest)).take (tail.length + 1) = c :: tail := by simp
      rw [Bite.lexeme, text, byteLength_append]

/-- Scanning a byte string never leaves it and finds the longest decimal at its front. What is
read from a text without a hexadecimal integer or a word depends on its sign and on the longest
decimal behind this alone, and is no number if there is none. Each number token is the longest
piece of the text that has one of the forms of numbers; it is read whole, as its number, which
is neither negative nor the one that is not a number. -/
theorem reads_longest_number :
    (∀ bytes : List UInt8, ∃ n, scan bytes = some n ∧
      Longest (fun front => IsDecimal (front.map UInt8.toChar)) bytes n) ∧
    (∀ text : List Char, ¬ Special (parted text).2 →
      ∃ n, scan (utf8 (parted text).2) = some n ∧ readLength (parted text).2 = n ∧
        Longest IsDecimal (parted text).2 n ∧
        readChars text = signed (parted text).1 (readUnsigned ((parted text).2.take n)) ∧
        (n = 0 → magnitude (readChars text) = .nan)) ∧
    ∀ (source : String) (x : Float) (span : Span), .ok ⟨.number x, span⟩ ∈ lexResults source →
      ∃ front text back, source.toList = front ++ (text ++ back) ∧
        span = .ofRange (byteLength front) (byteLength (front ++ text)) ∧
        Longest NumberForm (text ++ back) text.length ∧
        parted text = (false, text) ∧ readLength text = text.length ∧ readChars text = x ∧
        Numeral text x ∧ magnitude x ≠ .nan ∧ isNegative x = false := by
  refine ⟨fun bytes => ⟨_, scan_eq bytes, longest_bytes bytes⟩, fun text plain => ?_,
    fun source x span member => ?_⟩
  · have length := readLength_of_plain plain
    refine ⟨_, scan_utf8 _, length, longest_decimalLength _, ?_, fun none => ?_⟩
    · rw [← length, readUnsigned_take, readChars_eq_signed]
    · rw [readChars_eq_signed]
      exact magnitude_of_plain plain none _
  · obtain ⟨front, text, back, split, place, longest, numeral⟩ := exists_of_number member
    obtain ⟨unsigned, whole⟩ := numeral.readLength
    exact ⟨front, text, back, split, place, longest, unsigned, whole, numeral.readChars, numeral,
      numeral.counts.ordered, numeral.counts.positive⟩

theorem reads_longest_number_of_text_behind :
    let bytes : List UInt8 := [0x31, 0x2e, 0x65, 0xff]
    let text := "\t-1.5e+𝄞".toList
    let source := "a .5e1;"
    let x := readChars ".5e1".toList
    Longest (fun front => IsDecimal (front.map UInt8.toChar)) bytes 2 ∧
      ¬ Special (parted text).2 ∧ readChars text = signed true (readUnsigned "1.5".toList) ∧
      .ok ⟨.number x, ⟨2, 6⟩⟩ ∈ lexResults source ∧ magnitude x ≠ .nan ∧ isNegative x = false := by
  intro bytes text source x
  obtain ⟨scanned, read, token⟩ := reads_longest_number
  obtain ⟨_, two, longest⟩ := scanned bytes
  obtain rfl := Option.some.inj ((show scan bytes = some 2 by decide).symm.trans two)
  have plain : ¬ Special (parted text).2 := by decide
  obtain ⟨_, three, -, -, same, -⟩ := read text plain
  obtain rfl := Option.some.inj
    ((show scan (utf8 (parted text).2) = some 3 by decide).symm.trans three)
  have lexed : lexResults "a .5e1;" = [.ok ⟨.identifier "a", ⟨0, 1⟩⟩,
      .ok ⟨.number (readChars ".5e1".toList), ⟨2, 6⟩⟩, .ok ⟨.punctuator .semicolon, ⟨6, 7⟩⟩] := by
    rfl
  have member : .ok ⟨.number x, ⟨2, 6⟩⟩ ∈ lexResults source := by simp [lexed, source, x]
  obtain ⟨_, _, _, _, _, _, _, _, _, _, ordered, positive⟩ := token source x ⟨2, 6⟩ member
  exact ⟨longest, plain, same, member, ordered, positive⟩

end StepScript
