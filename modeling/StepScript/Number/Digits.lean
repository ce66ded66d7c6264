/-! The value of decimal digits.

`digitsValue` sums digits up from the left. `blockValue` finds the same value by
halves, which keeps long texts of digits cheap. Exponents are read only up to a
cap.
-/

set_option autoImplicit false

namespace StepScript.Number

def digitValue (c : Char) : Nat :=
  c.toNat - '0'.toNat

def digitsValue (chars : List Char) : Nat :=
  chars.foldl (fun sum c => sum * 10 + digitValue c) 0

theorem digitsValue_foldl (sum : Nat) (chars : List Char) :
    chars.foldl (fun sum c => sum * 10 + digitValue c) sum =
      sum * Nat.pow 10 chars.length + digitsValue chars := by
  induction chars generalizing sum with
  | nil => simp [digitsValue]
  | cons c rest ih =>
    simp only [digitsValue, List.foldl_cons, List.length_cons, Nat.zero_mul, Nat.zero_add]
    rw [ih (sum * 10 + digitValue c), ih (digitValue c)]
    simp only [Nat.pow_eq, Nat.pow_succ', Nat.add_mul, Nat.mul_assoc, Nat.add_assoc]

theorem digitsValue_append (front back : List Char) :
    digitsValue (front ++ back) =
      digitsValue front * Nat.pow 10 back.length + digitsValue back := by
  rw [digitsValue, List.foldl_append, digitsValue_foldl]
  rfl

def blockLength : Nat := 256

/-- The value of the decimal digits in `chars`, which are halved at most `rounds`
times. -/
def blockValue : Nat → List Char → Nat
  | 0, chars => digitsValue chars
  | rounds + 1, chars =>
    if chars.length ≤ blockLength then digitsValue chars
    else
      let front := chars.take (chars.length / 2)
      let back := chars.drop (chars.length / 2)
      blockValue rounds front * Nat.pow 10 back.length + blockValue rounds back

/-- Halving does not change the value. -/
@[simp] theorem blockValue_eq_digitsValue (rounds : Nat) (chars : List Char) :
    blockValue rounds chars = digitsValue chars := by
  induction rounds generalizing chars with
  | zero => rfl
  | succ rounds ih =>
    rw [blockValue]
    split
    · rfl
    · simp only [ih, ← digitsValue_append, List.take_append_drop]

/-- The value of the decimal digits in a text of any length: 64 halvings leave no
long block. -/
def longValue (chars : List Char) : Nat :=
  blockValue 64 chars

@[simp] theorem longValue_eq_digitsValue (chars : List Char) :
    longValue chars = digitsValue chars :=
  blockValue_eq_digitsValue 64 chars

def exponentCap : Nat := 65536

/-- The value of the digits of an exponent. Once it has reached `exponentCap` the
digits that follow are passed over, so an exponent never has more than six
places. -/
def exponentValue (chars : List Char) : Nat :=
  chars.foldl (fun sum c => if sum < exponentCap then sum * 10 + digitValue c else sum) 0

end StepScript.Number
