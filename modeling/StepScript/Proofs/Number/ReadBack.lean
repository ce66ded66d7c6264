import StepScript.Number.Text
import StepScript.Proofs.Number.Shortest

/-! Reading a number's text gives the number back.

A text of digits, perhaps with a point and a power of ten, is read as the decimal it
denotes. Every layout of `decimalText` denotes the decimal that it was made from, and
that lies in the interval of the number.
-/

set_option autoImplicit false

namespace StepScript.Number

def Decimal.value (decimal : Decimal) : ℚ :=
  decimal.digits * 10 ^ decimal.exponent

/-! ## Digits -/

theorem digitsValue_eq (chars : List Char) : digitsValue chars = Nat.ofDigitChars 10 chars 0 := by
  unfold digitsValue Nat.ofDigitChars
  congr 1
  funext sum c
  rw [Nat.mul_comm]
  rfl

@[simp] theorem digitsValue_toDigits (n : Nat) : digitsValue (Nat.toDigits 10 n) = n := by
  rw [digitsValue_eq, Nat.ofDigitChars_ten_toDigits]

@[simp] theorem digitsValue_zeros (count : Nat) : digitsValue (zeros count) = 0 := by
  rw [digitsValue_eq, zeros, Nat.ofDigitChars_replicate_zero, Nat.mul_zero]

def decimalDigits : List Char :=
  ['0', '1', '2', '3', '4', '5', '6', '7', '8', '9']

theorem mem_decimalDigits {c : Char} (digit : c.isDigit = true) : c ∈ decimalDigits := by
  have bounds : 48 ≤ c.toNat ∧ c.toNat ≤ 57 := by
    simp only [Char.isDigit, Bool.and_eq_true, decide_eq_true_eq] at digit
    exact digit
  obtain ⟨k, small, is⟩ : ∃ k, k < 10 ∧ c.toNat = 48 + k := ⟨c.toNat - 48, by omega, by omega⟩
  have same : c = Char.ofNat (48 + k) := by
    rw [← is, Char.ofNat_toNat]
  subst same
  clear is bounds digit
  revert k
  decide

theorem of_isDigit {p : Char → Bool} (all : decimalDigits.all p = true) {c : Char}
    (digit : c.isDigit = true) : p c = true :=
  List.all_eq_true.mp all c (mem_decimalDigits digit)

def AllDigits (chars : List Char) : Prop :=
  ∀ c ∈ chars, c.isDigit = true

theorem allDigits_toDigits (n : Nat) : AllDigits (Nat.toDigits 10 n) :=
  fun _ member => Nat.isDigit_of_mem_toDigits (by decide) (by decide) member

theorem allDigits_zeros (count : Nat) : AllDigits (zeros count) := by
  intro c member
  rw [List.eq_of_mem_replicate member]
  rfl

theorem AllDigits.append {front back : List Char} (first : AllDigits front)
    (second : AllDigits back) : AllDigits (front ++ back) := by
  intro c member
  rcases List.mem_append.mp member with member | member
  · exact first c member
  · exact second c member

def NoDigit (rest : List Char) : Prop :=
  ∀ c ∈ rest.head?, c.isDigit = false

theorem takeWhile_digits {digits rest : List Char} (all : AllDigits digits) (stop : NoDigit rest) :
    (digits ++ rest).takeWhile Char.isDigit = digits := by
  induction digits with
  | nil =>
    cases rest with
    | nil => rfl
    | cons c rest => simp [stop c rfl]
  | cons d digits ih =>
    rw [List.cons_append, List.takeWhile_cons, if_pos (all d (by simp)),
      ih fun c member => all c (by simp [member])]

theorem dropWhile_digits {digits rest : List Char} (all : AllDigits digits) (stop : NoDigit rest) :
    (digits ++ rest).dropWhile Char.isDigit = rest := by
  have split := List.takeWhile_append_dropWhile (p := Char.isDigit) (l := digits ++ rest)
  rw [takeWhile_digits all stop] at split
  exact List.append_cancel_left split

theorem takeWhile_zeros (chars : List Char) :
    chars.takeWhile (· == '0') = zeros (chars.takeWhile (· == '0')).length := by
  induction chars with
  | nil => rfl
  | cons c chars ih =>
    by_cases zero : c = '0'
    · subst zero
      simpa [zeros, List.replicate_succ] using ih
    · simp [zero, zeros]

theorem exists_dropZeros (chars : List Char) : ∃ count, chars = dropZeros chars ++ zeros count := by
  refine ⟨(chars.reverse.takeWhile (· == '0')).length, ?_⟩
  have split := List.takeWhile_append_dropWhile (p := (· == '0')) (l := chars.reverse)
  have turned := congrArg List.reverse split
  rw [List.reverse_append, List.reverse_reverse, takeWhile_zeros, zeros,
    List.reverse_replicate] at turned
  exact turned.symm

theorem digitsValue_append_zeros (digits : List Char) (count : Nat) :
    digitsValue (digits ++ zeros count) = digitsValue digits * 10 ^ count := by
  rw [digitsValue_append, digitsValue_zeros, Nat.add_zero, zeros, List.length_replicate]
  rfl

theorem digitsValue_zeros_append (count : Nat) (digits : List Char) :
    digitsValue (zeros count ++ digits) = digitsValue digits := by
  rw [digitsValue_append, digitsValue_zeros, Nat.zero_mul, Nat.zero_add]

/-! ## Reading decimals -/

inductive Fraction : List Char → List Char → Prop where
  | none : Fraction [] []
  | point {digits : List Char} (all : AllDigits digits) : Fraction digits ('.' :: digits)

def isPowerMark (c : Char) : Bool :=
  c == 'e' || c == 'E'

inductive Sign : Bool → List Char → Prop where
  | none : Sign false []
  | plus : Sign false ['+']
  | minus : Sign true ['-']

inductive Power : Int → List Char → Prop where
  | none : Power 0 []
  | marked {mark : Char} {negative : Bool} {sign digits : List Char}
    (markIs : isPowerMark mark = true) (signed : Sign negative sign) (all : AllDigits digits)
    (some : digits ≠ []) :
    Power (if negative then -exponentValue digits else exponentValue digits)
      (mark :: (sign ++ digits))

theorem of_isPowerMark {p : Char → Bool} (small : p 'e' = true) (large : p 'E' = true) {c : Char}
    (markIs : isPowerMark c = true) : p c = true := by
  simp only [isPowerMark, Bool.or_eq_true, beq_iff_eq] at markIs
  rcases markIs with rfl | rfl
  · exact small
  · exact large

/-- What follows cannot belong to the number. -/
def Ends (rest : List Char) : Prop :=
  ∀ c ∈ rest.head?, c.isAlphanum = false ∧ c ≠ '.'

theorem Ends.noDigit {rest : List Char} (ends : Ends rest) : NoDigit rest := by
  intro c first
  have other := (ends c first).1
  simp only [Char.isAlphanum, Bool.or_eq_false_iff] at other
  exact other.2

theorem Power.noDigit {power : Int} {mark rest : List Char} (raised : Power power mark)
    (ends : Ends rest) : NoDigit (mark ++ rest) := by
  cases raised with
  | none => exact ends.noDigit
  | marked markIs signed all nonempty =>
    rintro c ⟨⟩
    have other := of_isPowerMark (p := (!Char.isDigit ·)) rfl rfl markIs
    rwa [Bool.not_eq_true'] at other

theorem Power.noPoint {power : Int} {mark rest : List Char} (raised : Power power mark)
    (ends : Ends rest) : ∀ c ∈ (mark ++ rest).head?, c ≠ '.' := by
  cases raised with
  | none => exact fun c first => (ends c first).2
  | marked markIs signed all nonempty =>
    rintro c ⟨⟩
    exact bne_iff_ne.mp (of_isPowerMark (p := (· != '.')) rfl rfl markIs)

def pointPrefix (chars : List Char) : Nat × List Char × List Char :=
  match chars with
  | '.' :: rest => (1, rest.takeWhile Char.isDigit, rest.dropWhile Char.isDigit)
  | rest => (0, [], rest)

/-- What `decimalPrefix` reads behind the mark of a power: whether there is a minus, the
length of the sign and the rest. -/
def signPrefix (chars : List Char) : Bool × Nat × List Char :=
  match chars with
  | '-' :: rest => (true, 1, rest)
  | '+' :: rest => (false, 1, rest)
  | rest => (false, 0, rest)

/-- What `decimalPrefix` reads last: the power of ten and its length. -/
def powerPrefix (chars : List Char) : Int × Nat :=
  match chars with
  | mark :: rest =>
    if isPowerMark mark then
      let (negative, sign, rest) := signPrefix rest
      let power := rest.takeWhile Char.isDigit
      if power.isEmpty then (0, 0)
      else
        let value : Int := exponentValue power
        (if negative then -value else value, 1 + sign + power.length)
    else (0, 0)
  | [] => (0, 0)

theorem decimalPrefix_eq_parts (chars : List Char) :
    decimalPrefix chars =
      let whole := chars.takeWhile Char.isDigit
      let (dot, fraction, afterFraction) := pointPrefix (chars.dropWhile Char.isDigit)
      if whole.isEmpty && fraction.isEmpty then none
      else
        some (⟨digitsValue (whole ++ fraction), (powerPrefix afterFraction).1 - fraction.length⟩,
          whole.length + dot + fraction.length + (powerPrefix afterFraction).2) := by
  simp only [← longValue_eq_digitsValue]
  rfl

theorem signPrefix_eq {negative : Bool} {sign digits : List Char} (signed : Sign negative sign)
    (all : AllDigits digits) (nonempty : digits ≠ []) (rest : List Char) :
    signPrefix (sign ++ (digits ++ rest)) = (negative, sign.length, digits ++ rest) := by
  cases signed with
  | none =>
    obtain ⟨c, more, rfl⟩ := List.exists_cons_of_ne_nil nonempty
    have digit := all c List.mem_cons_self
    rw [List.nil_append, List.cons_append]
    unfold signPrefix
    split
    · next is =>
      rw [(List.cons.inj is).1] at digit
      cases digit
    · next is =>
      rw [(List.cons.inj is).1] at digit
      cases digit
    · rfl
  | plus => rfl
  | minus => rfl

theorem powerPrefix_eq {power : Int} {mark rest : List Char} (raised : Power power mark)
    (ends : Ends rest) : powerPrefix (mark ++ rest) = (power, mark.length) := by
  cases raised with
  | none =>
    cases rest with
    | nil => rfl
    | cons c rest =>
      have plain : isPowerMark c = false := by
        cases markIs : isPowerMark c with
        | false => rfl
        | true =>
          have letter := of_isPowerMark (p := Char.isAlphanum) rfl rfl markIs
          rw [(ends c rfl).1] at letter
          cases letter
      simp only [List.nil_append, powerPrefix, plain]
      rfl
  | @marked mark negative sign digits markIs signed all nonempty =>
    have filled : digits.isEmpty = false := by simpa using nonempty
    simp only [List.cons_append, List.append_assoc, powerPrefix, markIs,
      signPrefix_eq signed all nonempty, takeWhile_digits all ends.noDigit, filled]
    simp only [if_true, Bool.false_eq_true, if_false, List.length_cons, List.length_append]
    congr 1
    omega

theorem pointPrefix_eq {fraction point rest : List Char} (behind : Fraction fraction point)
    (stop : NoDigit rest) (noPoint : ∀ c ∈ rest.head?, c ≠ '.') :
    pointPrefix (point ++ rest) = (point.length - fraction.length, fraction, rest) := by
  cases behind with
  | none =>
    unfold pointPrefix
    split
    · next c more is => exact absurd rfl (noPoint '.' (by simp [show rest = _ from is]))
    · rfl
  | point all =>
    simp only [List.cons_append, pointPrefix, takeWhile_digits all stop, dropWhile_digits all stop]
    simp

/-- A text of digits, perhaps with a point and a power of ten, is read whole. -/
theorem decimalPrefix_eq {whole fraction point mark rest : List Char} {power : Int}
    (all : AllDigits whole) (nonempty : whole ++ fraction ≠ []) (behind : Fraction fraction point)
    (raised : Power power mark) (ends : Ends rest) :
    decimalPrefix (whole ++ (point ++ (mark ++ rest))) =
      some (⟨digitsValue (whole ++ fraction), power - fraction.length⟩,
        (whole ++ (point ++ mark)).length) := by
  have filled : (whole.isEmpty && fraction.isEmpty) = false := by simpa using nonempty
  have stop := raised.noDigit ends
  have stopWhole : NoDigit (point ++ (mark ++ rest)) := by
    cases behind with
    | none => exact stop
    | point more =>
      rintro c ⟨⟩
      rfl
  have longer : fraction.length ≤ point.length := by
    cases behind with
    | none => exact Nat.le_refl _
    | point more => exact Nat.le_succ _
  rw [decimalPrefix_eq_parts]
  simp only [takeWhile_digits all stopWhole, dropWhile_digits all stopWhole,
    pointPrefix_eq behind stop (raised.noPoint ends), powerPrefix_eq raised ends, filled]
  simp only [Bool.false_eq_true, if_false, List.length_append]
  congr 2
  omega

/-! ## Layouts -/

theorem exponentValue_eq {chars : List Char} (small : digitsValue chars < exponentCap) :
    exponentValue chars = digitsValue chars := by
  induction chars using List.reverseRecOn with
  | nil => rfl
  | append_singleton chars c ih =>
    have value : digitsValue (chars ++ [c]) = digitsValue chars * 10 + digitValue c := by
      simp [digitsValue]
    have lower : digitsValue chars < exponentCap := by omega
    have read : exponentValue (chars ++ [c]) =
        if exponentValue chars < exponentCap then exponentValue chars * 10 + digitValue c
        else exponentValue chars := by
      simp only [exponentValue, List.foldl_append]
      rfl
    rw [read, ih lower, if_pos lower, value]

/-- A text that is laid out as digits, perhaps a point and perhaps a power of ten, and the
decimal that is read from it. -/
inductive LaidOut : List Char → Decimal → Prop where
  | intro {whole fraction point mark : List Char} {power : Int} (all : AllDigits whole)
    (nonempty : whole ++ fraction ≠ []) (behind : Fraction fraction point) (raised : Power power mark) :
    LaidOut (whole ++ (point ++ mark)) ⟨digitsValue (whole ++ fraction), power - fraction.length⟩

def Denotes (text : List Char) (value : ℚ) : Prop :=
  ∃ decimal, LaidOut text decimal ∧ decimal.value = value

section

variable {digits : List Char} (all : AllDigits digits) (nonempty : digits ≠ [])
include all nonempty

theorem denotes_positional (place : Int) :
    Denotes (positional digits place) (digitsValue digits * 10 ^ (place - digits.length)) := by
  unfold positional
  split
  -- The point stands in front of the digits, behind them, or between them.
  · next small =>
    have zero : AllDigits ['0'] := allDigits_zeros 1
    have laid := LaidOut.intro zero (by simp) (.point ((allDigits_zeros (-place).toNat).append all))
      .none
    have value : digitsValue (['0'] ++ (zeros (-place).toNat ++ digits)) = digitsValue digits := by
      rw [← List.append_assoc]
      exact digitsValue_zeros_append ((-place).toNat + 1) digits
    have places : 0 - ((zeros (-place).toNat ++ digits).length : Int) = place - digits.length := by
      simp only [List.length_append, zeros, List.length_replicate]
      omega
    rw [value, places, List.append_nil] at laid
    exact ⟨_, laid, rfl⟩
  · next large =>
    split
    · next short =>
      have laid := LaidOut.intro (all.append (allDigits_zeros (place.toNat - digits.length)))
        (by simp [nonempty]) .none .none
      have places : place - digits.length = ((place.toNat - digits.length : Nat) : Int) := by omega
      rw [List.append_nil, List.append_nil, digitsValue_append_zeros] at laid
      refine ⟨_, laid, ?_⟩
      rw [Decimal.value, places, zpow_natCast]
      push_cast
      simp
    · next long =>
      have front : AllDigits (digits.take place.toNat) :=
        fun c member => all c (List.mem_of_mem_take member)
      have back : AllDigits (digits.drop place.toNat) :=
        fun c member => all c (List.mem_of_mem_drop member)
      have filled : digits.take place.toNat ++ digits.drop place.toNat ≠ [] := by
        rwa [List.take_append_drop]
      have places : 0 - ((digits.drop place.toNat).length : Int) = place - digits.length := by
        rw [List.length_drop]
        omega
      have laid := LaidOut.intro front filled (.point back) .none
      rw [List.take_append_drop, places, List.append_nil] at laid
      exact ⟨_, laid, rfl⟩

theorem denotes_scientific {power : Int} (small : power.natAbs < exponentCap) :
    Denotes (scientific digits power) (digitsValue digits * 10 ^ (power + 1 - digits.length)) := by
  -- The power is written with its sign, and has too few digits to be cut off.
  have raised : Power power ('e' :: (if power < 0 then '-' else '+') ::
      Nat.toDigits 10 power.natAbs) := by
    have value : exponentValue (Nat.toDigits 10 power.natAbs) = power.natAbs := by
      rw [exponentValue_eq] <;> simp [small]
    by_cases negative : power < 0
    · rw [if_pos negative]
      have down := Power.marked (show isPowerMark 'e' = true from rfl) .minus
        (allDigits_toDigits power.natAbs) Nat.toDigits_ne_nil
      rwa [if_pos rfl, value, show -(power.natAbs : Int) = power by omega] at down
    · rw [if_neg negative]
      have up := Power.marked (show isPowerMark 'e' = true from rfl) .plus
        (allDigits_toDigits power.natAbs) Nat.toDigits_ne_nil
      rwa [if_neg Bool.false_ne_true, value, show (power.natAbs : Int) = power by omega] at up
  -- A single digit has no point behind it.
  match digits with
  | [] => exact absurd rfl nonempty
  | [first] => exact ⟨_, .intro all (by simp) .none raised, by simp [Decimal.value]⟩
  | first :: second :: rest =>
    have front : AllDigits [first] := fun c member => all c (by simp_all)
    have back : AllDigits (second :: rest) := fun c member => all c (by simp_all)
    refine ⟨_, .intro front (by simp) (.point back) raised, ?_⟩
    have places : power - ((second :: rest).length : Int) =
        power + 1 - ((first :: second :: rest).length : Int) := by
      simp only [List.length_cons]
      omega
    rw [places]
    rfl

end

/-- Every layout denotes the decimal that it is made from. -/
theorem denotes_decimalText {decimal : Decimal} (some : 0 < decimal.digits)
    (small : (((Nat.toDigits 10 decimal.digits).length : Int) + decimal.exponent - 1).natAbs <
      exponentCap) : Denotes (decimalText decimal) decimal.value := by
  -- Zeros at the end are dropped, and the power of ten makes up for them.
  obtain ⟨count, split⟩ := exists_dropZeros (Nat.toDigits 10 decimal.digits)
  have value : decimal.digits =
      digitsValue (dropZeros (Nat.toDigits 10 decimal.digits)) * 10 ^ count := by
    rw [← digitsValue_append_zeros, ← split, digitsValue_toDigits]
  have length : (Nat.toDigits 10 decimal.digits).length =
      (dropZeros (Nat.toDigits 10 decimal.digits)).length + count := by
    have counted := congrArg List.length split
    rwa [List.length_append, zeros, List.length_replicate] at counted
  have all : AllDigits (dropZeros (Nat.toDigits 10 decimal.digits)) := by
    intro c member
    apply allDigits_toDigits decimal.digits
    rw [split]
    exact List.mem_append_left _ member
  have nonempty : dropZeros (Nat.toDigits 10 decimal.digits) ≠ [] := by
    intro empty
    rw [empty] at value
    simp [digitsValue] at value
    omega
  unfold decimalText
  simp only
  generalize (Nat.toDigits 10 decimal.digits).length = places at *
  generalize dropZeros (Nat.toDigits 10 decimal.digits) = digits at *
  have same : (digitsValue digits * 10 ^ ((places : Int) + decimal.exponent - digits.length) : ℚ) =
      decimal.value := by
    rw [Decimal.value, value, show (places : Int) + decimal.exponent - digits.length =
      count + decimal.exponent by omega, zpow_add₀ (by norm_num), zpow_natCast]
    push_cast
    ring
  rw [← same]
  split
  · exact denotes_positional all nonempty _
  · have scientific := denotes_scientific all nonempty small
    rwa [Int.sub_add_cancel] at scientific

/-! ## Reading a layout -/

theorem LaidOut.decimalPrefix_append {text rest : List Char} {decimal : Decimal}
    (laid : LaidOut text decimal) (ends : Ends rest) :
    decimalPrefix (text ++ rest) = some (decimal, text.length) := by
  obtain ⟨all, nonempty, behind, raised⟩ := laid
  have read := decimalPrefix_eq all nonempty behind raised ends
  simpa only [List.append_assoc] using read

def firstChars : List Char :=
  '.' :: decimalDigits

theorem LaidOut.exists_cons {text : List Char} {decimal : Decimal} (laid : LaidOut text decimal) :
    ∃ c more, text = c :: more ∧ c ∈ firstChars := by
  obtain ⟨all, nonempty, behind, -⟩ := laid
  next whole fraction point mark power =>
  cases whole with
  | cons c whole => exact ⟨c, _, rfl, List.mem_cons_of_mem _ (mem_decimalDigits (all c (by simp)))⟩
  | nil =>
    cases behind with
    | none => exact absurd rfl nonempty
    | point digits => exact ⟨'.', _, rfl, List.mem_cons_self⟩

def isHexMark (c : Char) : Bool :=
  c == 'x' || c == 'X'

theorem Ends.isHexMark {rest : List Char} (ends : Ends rest) :
    ∀ c ∈ rest.head?, isHexMark c = false := by
  intro c first
  have other := (ends c first).1
  rw [Number.isHexMark, Bool.or_eq_false_iff, beq_eq_false_iff_ne, beq_eq_false_iff_ne]
  constructor
  · rintro rfl
    cases other
  · rintro rfl
    cases other

def layoutChars : List Char :=
  '.' :: 'e' :: 'E' :: '+' :: '-' :: decimalDigits

theorem LaidOut.of_mem {p : Char → Bool} (known : layoutChars.all p = true) {text : List Char}
    {decimal : Decimal} (laid : LaidOut text decimal) : ∀ c ∈ text, p c = true := by
  simp only [layoutChars, List.all_cons, Bool.and_eq_true] at known
  obtain ⟨isPoint, isSmall, isLarge, isPlus, isMinus, areDigits⟩ := known
  have digit {c : Char} : c.isDigit = true → p c = true := of_isDigit areDigits
  obtain ⟨all, nonempty, behind, raised⟩ := laid
  intro c member
  rcases List.mem_append.mp member with whole | member
  · exact digit (all c whole)
  rcases List.mem_append.mp member with member | member
  · cases behind with
    | none => cases member
    | point digits =>
      rcases List.mem_cons.mp member with rfl | fraction
      · exact isPoint
      · exact digit (digits c fraction)
  · cases raised with
    | none => cases member
    | marked markIs signed digits filled =>
      rcases List.mem_cons.mp member with rfl | member
      · exact of_isPowerMark isSmall isLarge markIs
      rcases List.mem_append.mp member with sign | power
      · cases signed with
        | none => cases sign
        | plus => rwa [List.mem_singleton.mp sign]
        | minus => rwa [List.mem_singleton.mp sign]
      · exact digit (digits c power)

theorem LaidOut.isHexMark {text : List Char} {decimal : Decimal} (laid : LaidOut text decimal) :
    ∀ c ∈ text, isHexMark c = false := by
  intro c member
  have other := laid.of_mem (p := (!Number.isHexMark ·)) (by decide) c member
  rwa [Bool.not_eq_true'] at other

/-- A layout is not read as a hexadecimal number, whatever follows it. -/
theorem LaidOut.hexPrefix_append {text rest : List Char} {decimal : Decimal}
    (laid : LaidOut text decimal) (ends : Ends rest) : hexPrefix (text ++ rest) = none := by
  have plain : ∀ c ∈ (text ++ rest)[1]?, Number.isHexMark c = false := by
    intro c second
    obtain ⟨first, more, rfl, -⟩ := laid.exists_cons
    cases more with
    | nil => exact ends.isHexMark c (by simpa [List.head?_eq_getElem?] using second)
    | cons follower more =>
      cases second
      exact laid.isHexMark c (by simp)
  unfold hexPrefix
  split
  · next mark more is =>
    rw [is] at plain
    exact if_neg (Bool.eq_false_iff.mp (plain mark rfl))
  · rfl

theorem Ends.nil : Ends [] := by
  intro c first
  cases first

/-- What reading sees at a digit or the point: no white space, no sign and no word. -/
def startsNumber (c : Char) : Bool :=
  !Text.isBlank c && c != '-' && c != '+' && c.toLower != 'i' && c.toLower != 'n'

theorem readChars_of_startsNumber {c : Char} {more : List Char} (starts : startsNumber c = true) :
    readChars (c :: more) = readUnsigned (c :: more) := by
  simp only [startsNumber, Bool.and_eq_true, Bool.not_eq_true', bne_iff_ne] at starts
  obtain ⟨⟨⟨⟨seen, noMinus⟩, noPlus⟩, -⟩, -⟩ := starts
  unfold Number.readChars
  rw [Text.trimStart, List.dropWhile_cons, if_neg (by simp [seen])]
  split
  · next rest is => exact absurd (List.cons.inj is).1 noMinus
  · next rest is => exact absurd (List.cons.inj is).1 noPlus
  · rfl

theorem readChars_of_sign {negative : Bool} {sign : List Char} (signed : Sign negative sign)
    {c : Char} {more : List Char} (starts : startsNumber c = true) :
    readChars (sign ++ c :: more) =
      if negative then -readUnsigned (c :: more) else readUnsigned (c :: more) := by
  cases signed with
  | none => exact readChars_of_startsNumber starts
  | plus | minus => rfl

theorem startsNumber_of_mem {c : Char} (member : c ∈ firstChars) : startsNumber c = true := by
  have all : firstChars.all startsNumber = true := by decide
  exact List.all_eq_true.mp all c member

theorem LaidOut.readUnsigned {text : List Char} {decimal : Decimal} (laid : LaidOut text decimal) :
    readUnsigned text = decimal.toNumber := by
  have hex := laid.hexPrefix_append .nil
  have read := laid.decimalPrefix_append .nil
  rw [List.append_nil] at hex read
  obtain ⟨c, more, rfl, first⟩ := laid.exists_cons
  have start := startsNumber_of_mem first
  simp only [startsNumber, Bool.and_eq_true, bne_iff_ne] at start
  obtain ⟨⟨-, noI⟩, noN⟩ := start
  unfold Number.readUnsigned
  rw [hex]
  simp [beginsWith, noI, noN, read]

theorem LaidOut.readChars {text : List Char} {decimal : Decimal} (laid : LaidOut text decimal) :
    readChars text = decimal.toNumber := by
  obtain ⟨c, more, rfl, first⟩ := laid.exists_cons
  rw [readChars_of_startsNumber (startsNumber_of_mem first), laid.readUnsigned]

/-! ## Back to the number -/

theorem holds_iff_of_value {i : Interval} {d d' : Decimal} (same : d.value = d'.value) :
    i.Holds d ↔ i.Holds d' := by
  have ten : (0 : Nat) < 10 := by decide
  unfold Interval.Holds
  rw [contains_iff i (ratio_den_pos _ ten _), contains_iff i (ratio_den_pos _ ten _),
    ratio_value _ ten, ratio_value _ ten]
  unfold Decimal.value at same
  push_cast
  rw [same]

theorem two_pow_le_ten_pow (k : Nat) : (2 : ℚ) ^ (3 * k : Int) ≤ 10 ^ (k : Int) := by
  rw [zpow_mul, zpow_natCast, zpow_natCast]
  gcongr
  norm_num

/-- Every power of ten that is read fits this range. -/
structure InRange (value : ℚ) : Prop where
  low : 10 ^ (-400 : Int) < value
  high : value < 10 ^ (400 : Int)

theorem InRange.exponent_lt {value : ℚ} (range : InRange value) (power : Int)
    (le : 10 ^ power ≤ value) : power < 400 :=
  (zpow_lt_zpow_iff_right₀ (by norm_num : (1 : ℚ) < 10)).mp (le.trans_lt range.high)

theorem InRange.lt_exponent {value : ℚ} (range : InRange value) (power : Int)
    (lt : value < 10 ^ power) : -400 < power :=
  (zpow_lt_zpow_iff_right₀ (by norm_num : (1 : ℚ) < 10)).mp (range.low.trans lt)

section

variable {mantissa : Nat} {exponent : Int} {decimal : Decimal}
  (canonical : Canonical mantissa exponent) (some : 0 < mantissa)
  (holds : (Interval.around mantissa exponent).Holds decimal)
include canonical some holds

/-- What rounds to a number lies far from what reading cuts off. -/
theorem inRange_of_holds : InRange decimal.value := by
  obtain ⟨low, high, -⟩ := near_of_contains some (ratio_den_pos _ (by decide) _) holds
  have value := ratio_value decimal.digits (by decide : 0 < 10) decimal.exponent
  push_cast at value
  rw [value] at low high
  have part := lowerPart_le mantissa exponent
  have one : (1 : ℚ) ≤ mantissa := by exact_mod_cast some
  have half : (1 / 2 : ℚ) ≤ mantissa - lowerPart mantissa exponent := by linarith
  have most : (mantissa : ℚ) + 1 / 2 ≤ 2 ^ 53 := by
    have small := canonical.mantissa_lt
    simp only [hidden] at small
    have next : (mantissa : ℚ) + 1 ≤ 2 ^ 53 := by exact_mod_cast (by omega : mantissa + 1 ≤ 2 ^ 53)
    linarith
  have unit : (0 : ℚ) < 2 ^ exponent := by positivity
  have least : (2 : ℚ) ^ (-1074 : Int) ≤ 2 ^ exponent :=
    zpow_le_zpow_right₀ (by norm_num) canonical.le_exponent
  have largest : (2 : ℚ) ^ exponent ≤ 2 ^ (971 : Int) :=
    zpow_le_zpow_right₀ (by norm_num) canonical.exponent_le
  -- Such decimals lie between `2 ^ -1075` and `2 ^ 1024`, and ten is more than two cubed.
  have wide := two_pow_le_ten_pow 400
  constructor
  · calc (10 : ℚ) ^ (-400 : Int) = (10 ^ (400 : Int))⁻¹ := zpow_neg 10 400
      _ ≤ (2 ^ (3 * 400 : Int))⁻¹ := inv_anti₀ (by positivity) wide
      _ = 2 ^ (-(3 * 400) : Int) := (zpow_neg 2 _).symm
      _ < 2 ^ (-1 + -1074 : Int) := zpow_lt_zpow_right₀ one_lt_two (by decide)
      _ = 1 / 2 * 2 ^ (-1074 : Int) := by rw [zpow_add₀ two_ne_zero, zpow_neg_one, one_div]
      _ ≤ (mantissa - lowerPart mantissa exponent) * 2 ^ exponent :=
        mul_le_mul half least (by positivity) (le_trans (by norm_num) half)
      _ ≤ decimal.value := low
  · calc decimal.value ≤ (mantissa + 1 / 2) * 2 ^ exponent := high
      _ ≤ 2 ^ 53 * 2 ^ (971 : Int) := mul_le_mul most largest unit.le (by positivity)
      _ = 2 ^ (53 + 971 : Int) := two_pow_mul 53 971
      _ < 2 ^ (3 * 400 : Int) := zpow_lt_zpow_right₀ one_lt_two (by decide)
      _ ≤ 10 ^ (400 : Int) := wide

theorem digits_pos_of_holds : 0 < decimal.digits := by
  have range := inRange_of_holds canonical some holds
  have positive : 0 < decimal.value := lt_trans (by positivity) range.low
  apply Nat.pos_of_ne_zero
  intro zero
  simp [Decimal.value, zero] at positive

/-- A decimal that rounds to a number is read as the number. -/
theorem code_toNumber : code decimal.toNumber = encode mantissa exponent := by
  have range := inRange_of_holds canonical some holds
  have filled := digits_pos_of_holds canonical some holds
  have one : (1 : ℚ) ≤ decimal.digits := by exact_mod_cast filled
  have unit : (0 : ℚ) < 10 ^ decimal.exponent := by positivity
  have notLarge : ¬ exponentLimit < decimal.exponent := by
    have := range.exponent_lt decimal.exponent (by
      rw [Decimal.value]
      exact le_mul_of_one_le_left unit.le one)
    simp only [exponentLimit]
    omega
  have notSmall : ¬ decimal.exponent + decimal.digits.log2 + 1 < -exponentLimit := by
    have := range.lt_exponent (decimal.digits.log2 + 1 + decimal.exponent) (by
      rw [Decimal.value, zpow_add₀ (by norm_num)]
      gcongr
      calc (decimal.digits : ℚ) < 2 ^ (decimal.digits.log2 + 1 : Int) := (log2_bounds filled).2
        _ ≤ 10 ^ (decimal.digits.log2 + 1 : Int) := by
          rw [show (decimal.digits.log2 + 1 : Int) = (decimal.digits.log2 + 1 : Nat) by simp,
            zpow_natCast, zpow_natCast]
          gcongr
          norm_num)
    simp only [exponentLimit]
    omega
  have nearest := nearestCode_eq canonical some (ratio_den_pos _ (by decide) _) holds
  have small := encode_lt canonical
  -- None of the short cuts for zero and for extreme exponents is taken.
  unfold Decimal.toNumber
  rw [if_neg (Nat.ne_of_gt filled), if_neg notLarge, if_neg notSmall]
  change code (Float.ofBits (nearestCode (ratio decimal.digits 10 decimal.exponent).1
    (ratio decimal.digits 10 decimal.exponent).2).toUInt64) = _
  rw [nearest, code_ofBits]
  · rw [Nat.mod_eq_of_lt (small.trans (by decide))]
    exact small.le
  · exact small.trans (by decide)

theorem denotes_of_holds : Denotes (decimalText decimal) decimal.value := by
  have range := inRange_of_holds canonical some holds
  have filled := digits_pos_of_holds canonical some holds
  have unit : (0 : ℚ) < 10 ^ decimal.exponent := by positivity
  have places := Nat.length_toDigits_pos (b := 10) (n := decimal.digits)
  apply denotes_decimalText filled
  have high := range.exponent_lt
    (((Nat.toDigits 10 decimal.digits).length - 1 : Nat) + decimal.exponent) (by
      rw [Decimal.value, zpow_add₀ (by norm_num), zpow_natCast]
      gcongr
      exact_mod_cast pow_le_of_length filled)
  have low := range.lt_exponent
    (((Nat.toDigits 10 decimal.digits).length : Nat) + decimal.exponent) (by
      rw [Decimal.value, zpow_add₀ (by norm_num), zpow_natCast]
      gcongr
      exact_mod_cast lt_pow_length decimal.digits)
  simp only [exponentCap]
  omega

end

/-- The text that a number without a sign is written with: its own, and for infinity a
power of ten that is beyond all numbers. -/
def literalChars (x : Float) : List Char :=
  match magnitude x with
  | .infinite => "1e+999".toList
  | _ => chars x

theorem Canonical.exponent_of_zero {exponent : Int} (canonical : Canonical 0 exponent) :
    exponent = leastExponent := by
  rcases canonical.normal with normal | least
  · cases normal
  · exact least

/-- A number's text reads back: it is laid out, and what it is read as is the number. -/
theorem exists_laidOut {x : Float} (ordered : magnitude x ≠ .nan)
    (positive : isNegative x = false) :
    ∃ decimal, LaidOut (literalChars x) decimal ∧ decimal.toNumber = x := by
  have small : code x < signCode := by
    simpa [isNegative] using positive
  unfold literalChars
  cases is : magnitude x with
  | nan => exact absurd is ordered
  | infinite =>
    -- Infinity has no digits; its power of ten is beyond what is rounded to a number.
    have one : AllDigits ['1'] := by
      intro c member
      rw [List.mem_singleton.mp member]
      rfl
    have nines : AllDigits ['9', '9', '9'] := by simp [AllDigits, Char.isDigit]
    have raised := Power.marked (show isPowerMark 'e' = true from rfl) .plus nines (by simp)
    refine ⟨_, .intro one (by simp) .none raised, eq_of_code_eq ?_⟩
    have encoded : code x = infinityCode := by
      rw [← Nat.mod_eq_of_lt small]
      exact code_of_infinite is
    rw [encoded]
    exact code_ofBits (by decide) (by decide)
  | finite mantissa exponent =>
    obtain ⟨canonical, encoded⟩ := finite_of_magnitude is
    rw [Nat.mod_eq_of_lt small] at encoded
    by_cases zero : mantissa = 0
    · subst zero
      have least := canonical.exponent_of_zero
      have text : chars x = ['0'] := by simp [chars, is]
      have digit : AllDigits ['0'] := allDigits_zeros 1
      simp only [text]
      refine ⟨_, .intro digit (by simp) .none .none, eq_of_code_eq ?_⟩
      rw [encoded, least]
      rfl
    · obtain ⟨holds, -⟩ := holds_shortest canonical (Nat.pos_of_ne_zero zero)
      have text : chars x = decimalText (shortest mantissa exponent) := by
        simp [chars, is, zero, positive]
      obtain ⟨decimal, laid, same⟩ := denotes_of_holds canonical (Nat.pos_of_ne_zero zero) holds
      simp only [text]
      refine ⟨decimal, laid, eq_of_code_eq ?_⟩
      rw [encoded]
      exact code_toNumber canonical (Nat.pos_of_ne_zero zero) ((holds_iff_of_value same).mpr holds)

/-! ## Numbers and their signs -/

def isFinite (x : Float) : Bool :=
  match magnitude x with
  | .finite _ _ => true
  | _ => false

section

variable {x : Float}

theorem ne_nan_of_isFinite (finite : isFinite x = true) : magnitude x ≠ .nan := by
  intro is
  simp [isFinite, is] at finite

theorem ordered_of_isFinite (finite : isFinite x = true) : code x % signCode ≤ infinityCode :=
  ordered_of_magnitude (ne_nan_of_isFinite finite)

theorem isFinite_neg (finite : isFinite x = true) : isFinite (-x) = true := by
  rwa [isFinite, magnitude_neg (ordered_of_isFinite finite)]

theorem literalChars_of_isFinite (finite : isFinite x = true) : literalChars x = chars x := by
  unfold literalChars
  split
  · next is => simp [isFinite, is] at finite
  · rfl

theorem code_eq (x : Float) :
    code x = code x % signCode + if isNegative x then signCode else 0 := by
  have bits : code x < 2 * signCode := x.toBits.toBitVec.isLt
  by_cases low : code x < signCode
  · have positive : isNegative x = false := by simp [isNegative, low]
    rw [positive, Nat.mod_eq_of_lt low]
    rfl
  · have negative : isNegative x = true := by simpa [isNegative] using low
    rw [negative, if_pos rfl]
    simp only [signCode] at *
    omega

theorem neg_neg_of_ordered (ordered : magnitude x ≠ .nan) : - -x = x := by
  have known := ordered_of_magnitude ordered
  have same : code (-x) % signCode = code x % signCode := by
    rw [code_neg known]
    cases isNegative x <;> simp
  apply eq_of_code_eq
  rw [code_neg (by rwa [same]), same, isNegative_neg known, code_eq x]
  cases isNegative x <;> simp

theorem chars_neg_neg (finite : isFinite x = true) : chars (- -x) = chars x := by
  rw [neg_neg_of_ordered (ne_nan_of_isFinite finite)]

/-- A number below zero is written as a sign and the number above zero, and zero is
written without a sign. -/
theorem chars_of_isNegative (known : magnitude x ≠ .nan) (negative : isNegative x = true) :
    chars x = '-' :: chars (-x) ∨
      chars x = chars (-x) ∧ magnitude x = .finite 0 leastExponent := by
  have ordered := ordered_of_magnitude known
  have positive : isNegative (-x) = false := by
    rw [isNegative_neg ordered, negative]
    rfl
  cases is : magnitude x with
  | nan => exact absurd is known
  | infinite =>
    left
    simp [chars, magnitude_neg ordered, is, negative, positive]
  | finite mantissa exponent =>
    by_cases zero : mantissa = 0
    · subst zero
      right
      constructor
      · simp [chars, magnitude_neg ordered, is]
      · rw [(finite_of_magnitude is).1.exponent_of_zero]
    · left
      simp [chars, magnitude_neg ordered, is, zero, negative, positive]

end

end StepScript.Number
