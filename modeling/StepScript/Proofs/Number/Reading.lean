import StepScript.Proofs.Number.Hexadecimal
import StepScript.Proofs.Number.Scanning

/-! What reading depends on.

White space and one sign are taken off a text first. What is read from the rest are
hexadecimal digits, a word or the longest decimal at its front; nothing behind that counts.
-/

set_option autoImplicit false

namespace StepScript.Number

def parted (chars : List Char) : Bool × List Char :=
  match Text.trimStart chars with
  | '-' :: rest => (true, rest)
  | '+' :: rest => (false, rest)
  | rest => (false, rest)

theorem readChars_eq_signed (chars : List Char) :
    readChars chars = signed (parted chars).1 (readUnsigned (parted chars).2) := by
  unfold readChars parted
  cases Text.trimStart chars with
  | nil => rfl
  | cons c rest =>
    by_cases minus : c = '-'
    · subst minus
      rfl
    by_cases plus : c = '+'
    · subst plus
      rfl
    simp [minus, plus, signed]

/-- The text begins with a hexadecimal integer, or with `inf` or `nan` in any case. -/
inductive Special : List Char → Prop where
  | hexadecimal {mark digit : Char} {rest : List Char} (markIs : isHexMark mark = true)
    (isDigit : (hexDigit? digit).isSome = true) : Special ('0' :: mark :: digit :: rest)
  | word {word rest : List Char}
    (known : word.map Char.toLower = ['i', 'n', 'f'] ∨ word.map Char.toLower = ['n', 'a', 'n']) :
    Special (word ++ rest)

def readLength (chars : List Char) : Nat :=
  match hexPrefix chars with
  | some digits => digits.length + 2
  | none =>
    if beginsWith chars ['i', 'n', 'f'] || beginsWith chars ['n', 'a', 'n'] then 3
    else decimalLength chars

/-! ## Hexadecimal digits -/

theorem hexPrefix_ne_none {mark digit : Char} (markIs : isHexMark mark = true)
    (isDigit : (hexDigit? digit).isSome = true) (rest : List Char) :
    hexPrefix ('0' :: mark :: digit :: rest) ≠ none := by
  obtain ⟨value, is⟩ := Option.isSome_iff_exists.mp isDigit
  have some : hexDigits (digit :: rest) ≠ [] := by simp [hexDigits, is]
  rw [hexPrefix_eq markIs some]
  exact Option.some_ne_none _

theorem hexPrefix_take {chars : List Char} (none : hexPrefix chars = none) (n : Nat) :
    hexPrefix (chars.take n) = .none := by
  cases found : hexPrefix (chars.take n) with
  | none => rfl
  | some values =>
    obtain ⟨mark, digits, rest, front, markIs, all, some, -⟩ := exists_of_hexPrefix found
    obtain ⟨digit, digits, rfl⟩ := List.exists_cons_of_ne_nil some
    have whole := List.take_append_drop n chars
    rw [front] at whole
    exact absurd (whole ▸ none) (hexPrefix_ne_none markIs (all digit List.mem_cons_self) _)

theorem special_of_hexPrefix {chars : List Char} {values : List Nat}
    (found : hexPrefix chars = some values) : Special chars := by
  obtain ⟨mark, digits, rest, rfl, markIs, all, some, -⟩ := exists_of_hexPrefix found
  obtain ⟨digit, digits, rfl⟩ := List.exists_cons_of_ne_nil some
  exact .hexadecimal markIs (all digit List.mem_cons_self)

/-! ## Words -/

theorem special_of_beginsWith {chars word : List Char}
    (known : word = ['i', 'n', 'f'] ∨ word = ['n', 'a', 'n'])
    (begins : beginsWith chars word = true) : Special chars := by
  have same := eq_of_beq begins
  rw [← List.take_append_drop word.length chars]
  apply Special.word
  rwa [same]

theorem beginsWith_append {text word : List Char} (same : text.map Char.toLower = word)
    (rest : List Char) : beginsWith (text ++ rest) word = true := by
  subst same
  rw [beginsWith, List.length_map, List.take_left, beq_self_eq_true]

/-- Reading decides whether a text begins with a hexadecimal integer or a word. -/
theorem special_iff {chars : List Char} : Special chars ↔ (hexPrefix chars).isSome = true ∨
    beginsWith chars ['i', 'n', 'f'] = true ∨ beginsWith chars ['n', 'a', 'n'] = true := by
  constructor
  · intro special
    cases special with
    | hexadecimal markIs isDigit =>
      exact .inl (Option.isSome_iff_ne_none.mpr (hexPrefix_ne_none markIs isDigit _))
    | word known =>
      exact .inr (known.imp (beginsWith_append · _) (beginsWith_append · _))
  · rintro (isHex | isInf | isNan)
    · obtain ⟨values, found⟩ := Option.isSome_iff_exists.mp isHex
      exact special_of_hexPrefix found
    · exact special_of_beginsWith (.inl rfl) isInf
    · exact special_of_beginsWith (.inr rfl) isNan

instance : DecidablePred Special :=
  fun _ => decidable_of_iff _ special_iff.symm

theorem beginsWith_take (chars word : List Char) :
    beginsWith (chars.take word.length) word = beginsWith chars word := by
  rw [beginsWith, List.take_take, Nat.min_self, beginsWith]

/-! ## Decimals -/

section

variable {chars : List Char} (hex : hexPrefix chars = none)
  (noInf : beginsWith chars ['i', 'n', 'f'] = false)
  (noNan : beginsWith chars ['n', 'a', 'n'] = false)
include hex noInf noNan

theorem readLength_eq : readLength chars = decimalLength chars := by
  simp [readLength, hex, noInf, noNan]

theorem readUnsigned_eq :
    readUnsigned chars = ((decimalPrefix chars).map (·.1.toNumber)).getD nan := by
  rw [readUnsigned, hex]
  simp only [noInf, noNan, Bool.false_eq_true, if_false]
  cases decimalPrefix chars <;> rfl

end

/-- What is read is read from the characters that are counted. -/
theorem readUnsigned_take (chars : List Char) :
    readUnsigned (chars.take (readLength chars)) = readUnsigned chars := by
  cases hex : hexPrefix chars with
  | some values =>
    obtain ⟨mark, digits, rest, rfl, markIs, all, some, rfl⟩ := exists_of_hexPrefix hex
    have front : ('0' :: mark :: (digits ++ rest)).take (digits.length + 2) =
        '0' :: mark :: digits := by simp
    rw [readLength, hex]
    simp only [all.length_filterMap]
    rw [front, readUnsigned, all.hexPrefix markIs some, readUnsigned, hex]
  | none =>
    cases word : beginsWith chars ['i', 'n', 'f'] || beginsWith chars ['n', 'a', 'n'] with
    | true =>
      have length : readLength chars = 3 := by simp only [readLength, hex, word, if_true]
      have inf : beginsWith (chars.take 3) ['i', 'n', 'f'] = _ := beginsWith_take chars _
      have nan : beginsWith (chars.take 3) ['n', 'a', 'n'] = _ := beginsWith_take chars _
      rw [length, readUnsigned, hexPrefix_take hex, readUnsigned, hex]
      simp only [inf, nan]
      -- Either word decides before a decimal is looked for.
      rcases Bool.or_eq_true_iff.mp word with isInf | isNan
      · simp only [isInf, if_true]
      · simp only [isNan, if_true]
    | false =>
      obtain ⟨noInf, noNan⟩ := Bool.or_eq_false_iff.mp word
      rw [readLength_eq hex noInf noNan, readUnsigned_eq hex noInf noNan, decimalLength]
      cases found : decimalPrefix chars with
      | none => rfl
      | some decimal =>
        obtain ⟨text, rest, rfl, laid, length⟩ := exists_of_decimalPrefix found
        simp only [Option.map_some, Option.getD_some, ← length, List.take_left]
        exact laid.readUnsigned

/-! ## Numbers that are read -/

theorem nan_signed (negative : Bool) : magnitude (signed negative nan) = .nan := by
  cases negative <;> decide +kernel

section

variable {chars : List Char} (plain : ¬ Special chars)
include plain

theorem readLength_of_plain : readLength chars = decimalLength chars := by
  simp only [special_iff, not_or, Bool.not_eq_true, Option.isSome_eq_false_iff,
    Option.isNone_iff_eq_none] at plain
  obtain ⟨hex, noInf, noNan⟩ := plain
  exact readLength_eq hex noInf noNan

theorem magnitude_of_plain (none : decimalLength chars = 0) (negative : Bool) :
    magnitude (signed negative (readUnsigned chars)) = .nan := by
  have same := readUnsigned_take chars
  rw [readLength_of_plain plain, none, List.take_zero] at same
  rw [← same]
  exact nan_signed negative

end

theorem isNegative_nearest (num den : Nat) : isNegative (nearest num den) = false := by
  have small := nearestCode_le num den
  rw [isNegative, code_nearest]
  exact decide_eq_false (Nat.not_le.mpr (small.trans_lt (by decide)))

structure Counts (x : Float) : Prop where
  ordered : magnitude x ≠ .nan
  positive : isNegative x = false

theorem counts_nearest (num den : Nat) : Counts (nearest num den) :=
  ⟨nearest_ordered num den, isNegative_nearest num den⟩

theorem counts_toNumber (decimal : Decimal) : Counts decimal.toNumber := by
  unfold Decimal.toNumber
  split
  · exact ⟨by decide +kernel, by decide +kernel⟩
  split
  · exact ⟨by decide +kernel, by decide +kernel⟩
  split
  · exact ⟨by decide +kernel, by decide +kernel⟩
  · exact counts_nearest _ _

theorem hexDigits_lt {digits : List Char} : ∀ digit ∈ digits.filterMap hexDigit?, digit < 16 := by
  intro digit member
  obtain ⟨c, -, is⟩ := List.mem_filterMap.mp member
  exact hexDigit_lt is

theorem Numeral.counts {text : List Char} {x : Float} (numeral : Numeral text x) : Counts x := by
  cases numeral with
  | hexadecimal =>
    rw [hexValue_eq hexDigits_lt]
    exact counts_nearest _ _
  | decimal => exact counts_toNumber _

section

variable {c : Char} (starts : startsNumber c = true) (more : List Char)
include starts

theorem parted_of_startsNumber : parted (c :: more) = (false, c :: more) := by
  simp only [startsNumber, Bool.and_eq_true, Bool.not_eq_true', bne_iff_ne] at starts
  obtain ⟨⟨⟨⟨seen, noMinus⟩, noPlus⟩, -⟩, -⟩ := starts
  unfold parted
  rw [Text.trimStart, List.dropWhile_cons, if_neg (by simp [seen])]
  split
  · next rest is => exact absurd (List.cons.inj is).1 noMinus
  · next rest is => exact absurd (List.cons.inj is).1 noPlus
  · rfl

theorem noWord_of_startsNumber : beginsWith (c :: more) ['i', 'n', 'f'] = false ∧
    beginsWith (c :: more) ['n', 'a', 'n'] = false := by
  simp only [startsNumber, Bool.and_eq_true, bne_iff_ne] at starts
  obtain ⟨⟨-, noI⟩, noN⟩ := starts
  simp [beginsWith, noI, noN]

end

theorem Numeral.readLength {text : List Char} {x : Float} (numeral : Numeral text x) :
    parted text = (false, text) ∧ Number.readLength text = text.length := by
  obtain ⟨c, more, split, first⟩ := numeral.exists_cons
  have starts := startsNumber_of_mem first
  refine ⟨split ▸ parted_of_startsNumber starts more, ?_⟩
  cases numeral with
  | hexadecimal markIs all some =>
    rw [Number.readLength, all.hexPrefix markIs some]
    simp only [all.length_filterMap, List.length_cons]
  | decimal laid =>
    have hex := laid.hexPrefix_append .nil
    have found := laid.decimalPrefix_append .nil
    rw [List.append_nil] at hex found
    obtain ⟨noInf, noNan⟩ := noWord_of_startsNumber starts more
    rw [← split] at noInf noNan
    rw [readLength_eq hex noInf noNan, decimalLength, found]
    rfl

end StepScript.Number
