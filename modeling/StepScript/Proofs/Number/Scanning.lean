import StepScript.Proofs.Number.Numeral

/-! The longest number at the front of a text.

Reading takes as many characters as it can for a decimal: no longer beginning of the text has
the form of one. Bytes are scanned by position, each position being found from the ones
before; none is ever past the end, and the scan finds the same length. What stands behind the
decimal is not looked at further, and since all its characters are bytes of their own, it
makes no difference whether a text is taken by characters or by bytes.
-/

set_option autoImplicit false

namespace StepScript.Number

/-- The text has the form `digits[.digits][e[+-]digits]` with a digit before the exponent. -/
def IsDecimal (text : List Char) : Prop :=
  ∃ decimal, LaidOut text decimal

/-- The longest beginning of a list with a property that is not had by the empty list has this
length; the length is `0` if there is none. -/
structure Longest {β : Type} (P : List β → Prop) (items : List β) (n : Nat) : Prop where
  inside : n ≤ items.length
  holds : n ≠ 0 → P (items.take n)
  most : ∀ m ≤ items.length, P (items.take m) → m ≤ n

def decimalLength (chars : List Char) : Nat :=
  ((decimalPrefix chars).map (·.2)).getD 0

theorem decimalLength_eq (chars : List Char) :
    decimalLength chars =
      let whole := chars.takeWhile Char.isDigit
      let (dot, fraction, afterFraction) := pointPrefix (chars.dropWhile Char.isDigit)
      if whole.isEmpty && fraction.isEmpty then 0
      else whole.length + dot + fraction.length + (powerPrefix afterFraction).2 := by
  rw [decimalLength, decimalPrefix_eq_parts]
  simp only
  split <;> rfl

theorem pointPrefix_of_noPoint {chars : List Char} (noPoint : chars.head? ≠ some '.') :
    pointPrefix chars = (0, [], chars) := by
  unfold pointPrefix
  split
  · exact absurd rfl noPoint
  · rfl

/-! ## No longer beginning has the form -/

theorem Power.length_le {power : Int} {mark : List Char} (raised : Power power mark)
    (rest : List Char) : mark.length ≤ (powerPrefix (mark ++ rest)).2 := by
  cases raised with
  | none => exact Nat.zero_le _
  | @marked mark negative sign digits markIs signed all some =>
    have filled : (digits ++ rest.takeWhile Char.isDigit).isEmpty = false := by simp [some]
    simp only [List.cons_append, List.append_assoc, powerPrefix, markIs,
      signPrefix_eq signed all some, List.takeWhile_append_of_pos all, filled]
    simp only [if_true, Bool.false_eq_true, if_false, List.length_cons, List.length_append]
    omega

theorem Power.stops {power : Int} {mark : List Char} (raised : Power power mark)
    (rest : List Char) : mark = [] ∨
      (mark ++ rest).takeWhile Char.isDigit = [] ∧
        (mark ++ rest).dropWhile Char.isDigit = mark ++ rest ∧
        pointPrefix (mark ++ rest) = (0, [], mark ++ rest) := by
  cases raised with
  | none => exact .inl rfl
  | @marked mark _ sign digits markIs _ _ _ =>
    right
    have noDigit : ¬ mark.isDigit = true := by
      have other := of_isPowerMark (p := (!Char.isDigit ·)) rfl rfl markIs
      rwa [Bool.not_eq_true', ← Bool.not_eq_true] at other
    have noPoint : mark ≠ '.' := bne_iff_ne.mp (of_isPowerMark (p := (· != '.')) rfl rfl markIs)
    exact ⟨List.takeWhile_cons_of_neg noDigit, List.dropWhile_cons_of_neg noDigit,
      pointPrefix_of_noPoint fun same => noPoint (Option.some.inj same)⟩

theorem LaidOut.length_le {text : List Char} {decimal : Decimal} (laid : LaidOut text decimal)
    (rest : List Char) : text.length ≤ decimalLength (text ++ rest) := by
  obtain ⟨all, some, behind, raised⟩ := laid
  next whole fraction point mark power =>
  have longer := raised.length_le rest
  have stops := raised.stops rest
  rw [List.append_assoc, List.append_assoc, decimalLength_eq, List.takeWhile_append_of_pos all,
    List.dropWhile_append_of_pos all]
  -- What follows the text may prolong its last digits, so the texts are not equal in length.
  cases behind with
  | none =>
    have filled : (whole ++ (mark ++ rest).takeWhile Char.isDigit).isEmpty = false := by
      simp at some
      simp [some]
    simp only [List.nil_append, filled, Bool.false_and, Bool.false_eq_true, if_false,
      List.length_append]
    rcases stops with rfl | ⟨front, back, noPoint⟩
    · simp only [List.length_nil]
      omega
    · simp only [back, noPoint, List.length_nil]
      omega
  | point more =>
    have front : ('.' :: (fraction ++ (mark ++ rest))).takeWhile Char.isDigit = [] := rfl
    have back : ('.' :: (fraction ++ (mark ++ rest))).dropWhile Char.isDigit =
        '.' :: (fraction ++ (mark ++ rest)) := rfl
    have filled : (whole.isEmpty &&
        (fraction ++ (mark ++ rest).takeWhile Char.isDigit).isEmpty) = false := by
      cases whole with
      | nil =>
        rw [List.nil_append] at some
        simp [some]
      | cons c whole => rfl
    simp only [List.cons_append, front, back, pointPrefix, List.takeWhile_append_of_pos more,
      List.dropWhile_append_of_pos more, List.append_nil, filled, Bool.false_eq_true, if_false,
      List.length_append, List.length_cons]
    rcases stops with rfl | ⟨-, back, -⟩
    · simp only [List.length_nil]
      omega
    · simp only [back]
      omega

theorem IsDecimal.le_decimalLength {chars : List Char} {m : Nat}
    (isDecimal : IsDecimal (chars.take m)) (inside : m ≤ chars.length) :
    m ≤ decimalLength chars := by
  obtain ⟨_, laid⟩ := isDecimal
  have longer := laid.length_le (chars.drop m)
  rwa [List.take_append_drop, List.length_take_of_le inside] at longer

/-- What is found has the form of a decimal, and nothing longer has it. -/
theorem longest_decimalLength (chars : List Char) :
    Longest IsDecimal chars (decimalLength chars) := by
  cases found : decimalPrefix chars with
  | none =>
    have zero : decimalLength chars = 0 := by
      rw [decimalLength, found]
      rfl
    exact ⟨zero ▸ Nat.zero_le _, fun some => absurd zero some,
      fun _ inside isDecimal => isDecimal.le_decimalLength inside⟩
  | some decimal =>
    obtain ⟨text, rest, rfl, laid, length⟩ := exists_of_decimalPrefix found
    have whole : decimalLength (text ++ rest) = text.length := by
      rw [decimalLength, found, length]
      rfl
    exact ⟨by simp [whole], fun _ => ⟨_, by rwa [whole, List.take_left]⟩,
      fun _ inside isDecimal => isDecimal.le_decimalLength inside⟩

/-! ## Bytes -/

/-- The number of digits from a position on; nothing if the position is past the end. -/
def digitsFrom (bytes : List UInt8) (start : Nat) : Option Nat :=
  if start ≤ bytes.length then
    some ((bytes.drop start).takeWhile fun b => b.toChar.isDigit).length
  else none

def charAt? (bytes : List UInt8) (position : Nat) : Option Char :=
  bytes[position]?.map UInt8.toChar

def signLength : Option Char → Nat
  | some '+' | some '-' => 1
  | _ => 0

theorem signLength_head? (chars : List Char) :
    signLength chars.head? = (signPrefix chars).2.1 := by
  unfold signPrefix
  split
  · rfl
  · rfl
  · next noMinus noPlus =>
    cases chars with
    | nil => rfl
    | cons c rest =>
      rw [List.head?_cons, signLength]
      · rintro ⟨⟩
        exact noPlus rest rfl
      · rintro ⟨⟩
        exact noMinus rest rfl

def scanPower (bytes : List UInt8) (stop : Nat) : Option Nat :=
  if (charAt? bytes stop).any isPowerMark then do
    let start := stop + 1 + signLength (charAt? bytes (stop + 1))
    let digits ← digitsFrom bytes start
    return if 0 < digits then start + digits else stop
  else return stop

/-- The length of the decimal at the front of a byte string, found from one position to the next;
nothing if digits are counted from a position past the end. -/
def scan (bytes : List UInt8) : Option Nat := do
  let whole ← digitsFrom bytes 0
  let (stop, digits) ← match charAt? bytes whole with
    | some '.' => do
      let fraction ← digitsFrom bytes (whole + 1)
      pure (whole + 1 + fraction, whole + fraction)
    | _ => pure (whole, whole)
  if digits = 0 then return 0
  scanPower bytes stop

section

variable {bytes : List UInt8} {front back : List Char}
  (split : bytes.map UInt8.toChar = front ++ back)
include split

theorem digitsFrom_eq : digitsFrom bytes front.length =
    some (back.takeWhile Char.isDigit).length := by
  have length := congrArg List.length split
  have behind := congrArg (List.drop front.length) split
  rw [List.length_map, List.length_append] at length
  rw [List.drop_left, ← List.map_drop] at behind
  rw [digitsFrom, if_pos (by omega), ← behind, List.takeWhile_map, List.length_map]
  rfl

theorem charAt?_eq : charAt? bytes front.length = back.head? := by
  have there := congrArg (·[front.length]?) split
  simp only [List.getElem?_map, List.getElem?_append_right (Nat.le_refl _), Nat.sub_self] at there
  rw [charAt?, there, List.head?_eq_getElem?]

theorem scanPower_eq : scanPower bytes front.length =
    some (front.length + (powerPrefix back).2) := by
  have here := charAt?_eq split
  cases back with
  | nil =>
    rw [scanPower, here]
    rfl
  | cons mark rest =>
    cases markIs : isPowerMark mark with
    | false => simp [scanPower, here, powerPrefix, markIs]
    | true =>
      -- Behind a mark, digits are counted from past the sign, whether they are there or not.
      obtain ⟨sign, behind, -, length⟩ := signPrefix_split rest
      have signed := signLength_head? rest
      rw [powerPrefix]
      generalize signPrefix rest = found at *
      obtain ⟨negative, count, after⟩ := found
      simp only at behind length signed
      have splitMark : bytes.map UInt8.toChar = (front ++ [mark]) ++ rest := by simp [split]
      have splitSign : bytes.map UInt8.toChar = (front ++ mark :: sign) ++ after := by
        simp [split, behind]
      have next := charAt?_eq splitMark
      have digits := digitsFrom_eq splitSign
      rw [List.length_append, List.length_singleton] at next
      rw [List.length_append, List.length_cons, length, Nat.add_comm count, ← Nat.add_assoc] at digits
      rw [scanPower, here, next, signed]
      simp only [List.head?_cons, Option.any_some, markIs, if_true, digits, bind, Option.bind_some]
      cases after.takeWhile Char.isDigit with
      | nil => rfl
      | cons d more =>
        simp only [List.length_cons, List.isEmpty_cons, Bool.false_eq_true, if_false,
          Nat.zero_lt_succ, if_true, pure]
        congr 1
        omega

end

/-- The scan comes to an end, and it finds what is found in the characters of the bytes. -/
theorem scan_eq (bytes : List UInt8) :
    scan bytes = some (decimalLength (bytes.map UInt8.toChar)) := by
  generalize is : bytes.map UInt8.toChar = chars
  have digits := digitsFrom_eq (is.trans (List.nil_append chars).symm)
  have split := is.trans (List.takeWhile_append_dropWhile (p := Char.isDigit)).symm
  have next := charAt?_eq split
  rw [List.length_nil] at digits
  rw [decimalLength_eq, scan, digits]
  generalize chars.takeWhile Char.isDigit = whole at *
  generalize chars.dropWhile Char.isDigit = behind at *
  simp only [bind, Option.bind_some, next]
  -- What stands behind the whole digits is a point, or the point is left out.
  split
  · next point =>
    obtain ⟨after, rfl⟩ := List.head?_eq_some_iff.mp point
    have splitPoint : bytes.map UInt8.toChar = (whole ++ ['.']) ++ after := by simp [split]
    have splitFraction : bytes.map UInt8.toChar =
        (whole ++ '.' :: after.takeWhile Char.isDigit) ++ after.dropWhile Char.isDigit := by
      simp [split, List.takeWhile_append_dropWhile]
    have fraction := digitsFrom_eq splitPoint
    have power := scanPower_eq splitFraction
    rw [List.length_append, List.length_singleton] at fraction
    rw [List.length_append, List.length_cons, Nat.add_comm _ 1, ← Nat.add_assoc] at power
    rw [pointPrefix]
    simp only [fraction, Option.bind_some, pure]
    split
    · next none =>
      obtain ⟨noWhole, noFraction⟩ := Nat.add_eq_zero_iff.mp none
      rw [List.length_eq_zero_iff.mp noWhole, List.length_eq_zero_iff.mp noFraction]
      rfl
    · next some =>
      have filled : (whole.isEmpty && (after.takeWhile Char.isDigit).isEmpty) = false := by
        rw [Bool.eq_false_iff, Ne, Bool.and_eq_true, List.isEmpty_iff_length_eq_zero,
          List.isEmpty_iff_length_eq_zero]
        omega
      rw [power, filled]
      rfl
  · next noPoint =>
    have power := scanPower_eq split
    rw [pointPrefix_of_noPoint noPoint]
    simp only [pure, Option.bind_some]
    split
    · next none =>
      rw [List.length_eq_zero_iff.mp none]
      rfl
    · next some =>
      have filled : whole.isEmpty = false := by
        rwa [Bool.eq_false_iff, Ne, List.isEmpty_iff_length_eq_zero]
      rw [power, filled]
      rfl

theorem longest_bytes (bytes : List UInt8) :
    Longest (fun front => IsDecimal (front.map UInt8.toChar)) bytes
      (decimalLength (bytes.map UInt8.toChar)) := by
  obtain ⟨inside, holds, most⟩ := longest_decimalLength (bytes.map UInt8.toChar)
  rw [List.length_map] at inside most
  refine ⟨inside, fun some => ?_, fun m bound isDecimal => most m bound ?_⟩
  · rw [List.map_take]
    exact holds some
  · rwa [← List.map_take]

/-! ## Texts as bytes -/

def utf8 (chars : List Char) : List UInt8 :=
  chars.flatMap String.utf8EncodeChar

theorem toNat_toChar (n : Nat) : (UInt8.ofNat n).toChar.toNat = n % 256 :=
  (UInt8.toNat_toUInt32 _).trans UInt8.toNat_ofNat

/-- A character is the byte with its code, or it has a larger code and begins with a byte that no
such character has. -/
theorem utf8EncodeChar_cases (c : Char) :
    (∃ b, String.utf8EncodeChar c = [b] ∧ b.toChar = c) ∨
      127 < c.toNat ∧ ∃ b more, String.utf8EncodeChar c = b :: more ∧ 127 < b.toChar.toNat := by
  unfold String.utf8EncodeChar
  simp only
  split
  · next small =>
    have code : (UInt8.ofNat c.val.toNat).toChar.toNat = c.toNat := by
      rw [toNat_toChar]
      exact Nat.mod_eq_of_lt (by omega)
    exact .inl ⟨_, rfl, Char.toNat_inj.mp code⟩
  · next large =>
    refine .inr ⟨Nat.lt_of_not_le large, ?_⟩
    split
    · exact ⟨_, _, rfl, by rw [toNat_toChar]; omega⟩
    · split <;> exact ⟨_, _, rfl, by rw [toNat_toChar]; omega⟩

theorem LaidOut.toNat_le {text : List Char} {decimal : Decimal} (laid : LaidOut text decimal) :
    ∀ c ∈ text, c.toNat ≤ 127 := by
  intro c member
  exact of_decide_eq_true
    (laid.of_mem (p := fun c => decide (c.toNat ≤ 127)) (by decide) c member)

theorem isPrefix_utf8_iff {text : List Char} (single : ∀ c ∈ text, c.toNat ≤ 127)
    (chars : List Char) : text <+: (utf8 chars).map UInt8.toChar ↔ text <+: chars := by
  induction chars generalizing text with
  | nil => rfl
  | cons c chars ih =>
    cases text with
    | nil => simp
    | cons first text =>
      obtain ⟨here, later⟩ := List.forall_mem_cons.mp single
      rw [utf8, List.flatMap_cons, ← utf8, List.map_append, List.cons_prefix_cons]
      -- A character of several bytes has a first byte that is none of the single ones.
      rcases utf8EncodeChar_cases c with ⟨b, encoded, same⟩ | ⟨large, b, more, encoded, wide⟩
      · rw [encoded, List.map_singleton, List.singleton_append, List.cons_prefix_cons, same,
          ih later]
      · rw [encoded, List.map_cons, List.cons_append, List.cons_prefix_cons]
        refine iff_of_false ?_ ?_
        · rintro ⟨rfl, -⟩
          omega
        · rintro ⟨rfl, -⟩
          omega

theorem decimalLength_le {chars other : List Char}
    (kept : ∀ text, IsDecimal text → text <+: chars → text <+: other) :
    decimalLength chars ≤ decimalLength other := by
  obtain ⟨inside, holds, -⟩ := longest_decimalLength chars
  rcases Nat.eq_zero_or_pos (decimalLength chars) with zero | some
  · rw [zero]
    exact Nat.zero_le _
  · obtain ⟨decimal, laid⟩ := holds (Nat.ne_of_gt some)
    obtain ⟨rest, split⟩ := kept _ ⟨decimal, laid⟩ (List.take_prefix _ _)
    have longer := laid.length_le rest
    rwa [split, List.length_take_of_le inside] at longer

/-- The scan of a text's bytes finds as many bytes as there are characters to the decimal. -/
theorem scan_utf8 (chars : List Char) : scan (utf8 chars) = some (decimalLength chars) := by
  have same (text : List Char) (isDecimal : IsDecimal text) :
      text <+: (utf8 chars).map UInt8.toChar ↔ text <+: chars := by
    obtain ⟨decimal, laid⟩ := isDecimal
    exact isPrefix_utf8_iff laid.toNat_le chars
  rw [scan_eq]
  exact congrArg some (Nat.le_antisymm
    (decimalLength_le fun text isDecimal => (same text isDecimal).mp)
    (decimalLength_le fun text isDecimal => (same text isDecimal).mpr))

end StepScript.Number
