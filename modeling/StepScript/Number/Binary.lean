/-! Binary floating point numbers as integers.

A finite number is `mantissa * 2 ^ exponent` up to its sign. `magnitude` takes
a number apart and `nearest` finds the number closest to a ratio of naturals,
both in exact arithmetic on the 64-bit encoding.
-/

set_option autoImplicit false

namespace StepScript.Number

inductive Magnitude where
  | nan
  | infinite
  | finite (mantissa : Nat) (exponent : Int)
  deriving Repr, DecidableEq

/-- The mantissas of normal numbers start here, at `2 ^ 52`. -/
def hidden : Nat := 4503599627370496

def leastExponent : Int := -1074

def infinityCode : Nat := 2047 * hidden

def code (x : Float) : Nat :=
  x.toBits.toNat

def signCode : Nat := 9223372036854775808

def isNegative (x : Float) : Bool :=
  signCode ≤ code x

def magnitudeOfCode (code : Nat) : Magnitude :=
  let field := code / hidden
  let fraction := code % hidden
  if field = 2047 then
    if fraction = 0 then .infinite else .nan
  else if field = 0 then
    .finite fraction leastExponent
  else
    .finite (hidden + fraction) (field - 1075)

def magnitude (x : Float) : Magnitude :=
  magnitudeOfCode (code x % signCode)

def ratio (mantissa base : Nat) (exponent : Int) : Nat × Nat :=
  (mantissa * Nat.pow base exponent.toNat, Nat.pow base (-exponent).toNat)

/-- The integer nearest to `num / den`; of two the even one. -/
def roundHalfEven (num den : Nat) : Nat :=
  let quotient := num / den
  let rest := num % den
  if den < 2 * rest ∨ (2 * rest = den ∧ quotient % 2 = 1) then quotient + 1 else quotient

/-- The exponent at which `num / den` has a mantissa of 53 bits, or the least
exponent if that is larger. -/
def exponentOf (num den : Nat) : Int :=
  let guess : Int := (num.log2 : Int) - den.log2 - 52
  let (scaledNum, scaledDen) := ratio num 2 (-guess)
  let exponent := if scaledNum / (den * scaledDen) < hidden then guess - 1 else guess
  max exponent leastExponent

/-- The encoding of the number nearest to `num / den`. A mantissa that rounds up
to a power of two carries into the exponent field. -/
def nearestCode (num den : Nat) : Nat :=
  if num = 0 then 0
  else
    let exponent := exponentOf num den
    let (scaledNum, scaledDen) := ratio num 2 (-exponent)
    let mantissa := roundHalfEven scaledNum (den * scaledDen)
    min ((exponent - leastExponent).toNat * hidden + mantissa) infinityCode

def nearest (num den : Nat) : Float :=
  Float.ofBits (nearestCode num den).toUInt64

def infinity : Float :=
  Float.ofBits infinityCode.toUInt64

def nan : Float :=
  0.0 / 0.0

/-- The remainder of `x / y` with the quotient cut toward zero; it has the sign
of `x` and is exact. -/
def remainder (x y : Float) : Float :=
  match magnitude x, magnitude y with
  | .finite m p, .finite n q =>
    if n = 0 then nan
    else
      let least := min p q
      let rest := (m * Nat.pow 2 (p - least).toNat) % (n * Nat.pow 2 (q - least).toNat)
      let (num, den) := ratio rest 2 least
      if isNegative x then -(nearest num den) else nearest num den
  | .finite _ _, .infinite => x
  | _, _ => nan

def truncate? (x : Float) : Option Int :=
  match magnitude x with
  | .finite mantissa exponent =>
    let (num, den) := ratio mantissa 2 exponent
    let whole : Int := num / den
    some (if isNegative x then -whole else whole)
  | _ => none

end StepScript.Number
