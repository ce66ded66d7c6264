import StepScript.Number.Digits
import StepScript.Number.Shortest
import StepScript.Text.Blank

/-! Numbers as text, and text as numbers.

Numbers are written with the fewest digits that read back, positionally from
`0.000001` up to below `10 ^ 21` and with an exponent outside. Reading takes the
longest numeric beginning of a text and never fails.
-/

set_option autoImplicit false

namespace StepScript.Number

/-! ## Writing -/

def mostWhole : Int := 21

def mostZeros : Int := 5

def zeros (count : Nat) : List Char :=
  List.replicate count '0'

def positional (digits : List Char) (point : Int) : List Char :=
  if point ≤ 0 then
    '0' :: '.' :: zeros (-point).toNat ++ digits
  else if (digits.length : Int) ≤ point then
    digits ++ zeros (point.toNat - digits.length)
  else
    digits.take point.toNat ++ '.' :: digits.drop point.toNat

/-- Digits with the point after the first one and the power of ten written out;
a power that is not negative has a plus sign. -/
def scientific (digits : List Char) (power : Int) : List Char :=
  let mantissa := match digits with
    | first :: second :: rest => first :: '.' :: second :: rest
    | short => short
  let sign := if power < 0 then '-' else '+'
  mantissa ++ 'e' :: sign :: Nat.toDigits 10 power.natAbs

def dropZeros (digits : List Char) : List Char :=
  (digits.reverse.dropWhile (· == '0')).reverse

def decimalText (decimal : Decimal) : List Char :=
  let all := Nat.toDigits 10 decimal.digits
  let point := (all.length : Int) + decimal.exponent
  let digits := dropZeros all
  if -mostZeros ≤ point ∧ point ≤ mostWhole then positional digits point
  else scientific digits (point - 1)

def chars (x : Float) : List Char :=
  match magnitude x with
  | .nan => "NaN".toList
  | .infinite => if isNegative x then "-Infinity".toList else "Infinity".toList
  | .finite mantissa exponent =>
    if mantissa = 0 then ['0']
    else
      let text := decimalText (shortest mantissa exponent)
      if isNegative x then '-' :: text else text

def text (x : Float) : String :=
  String.ofList (chars x)

/-! ## Reading -/

/-- Decimal exponents beyond this decide the value alone. -/
def exponentLimit : Int := 400

def Decimal.toNumber (decimal : Decimal) : Float :=
  if decimal.digits = 0 then 0.0
  else if exponentLimit < decimal.exponent then infinity
  else if decimal.exponent + decimal.digits.log2 + 1 < -exponentLimit then 0.0
  else
    let (num, den) := ratio decimal.digits 10 decimal.exponent
    nearest num den

/-- The longest beginning of the form `digits[.digits][e[+-]digits]` with a digit
before the exponent, as the decimal it denotes and its length. Only the exponent
has a limit; digits in front of it are all counted. -/
def decimalPrefix (chars : List Char) : Option (Decimal × Nat) :=
  let whole := chars.takeWhile Char.isDigit
  let afterWhole := chars.dropWhile Char.isDigit
  let (dot, fraction, afterFraction) := match afterWhole with
    | '.' :: rest => (1, rest.takeWhile Char.isDigit, rest.dropWhile Char.isDigit)
    | rest => (0, [], rest)
  if whole.isEmpty && fraction.isEmpty then none
  else
    let digits := longValue (whole ++ fraction)
    let length := whole.length + dot + fraction.length
    let (power, powerLength) : Int × Nat := match afterFraction with
      | mark :: rest =>
        if mark == 'e' || mark == 'E' then
          let (negative, sign, rest) := match rest with
            | '-' :: rest => (true, 1, rest)
            | '+' :: rest => (false, 1, rest)
            | rest => (false, 0, rest)
          let power := rest.takeWhile Char.isDigit
          if power.isEmpty then (0, 0)
          else
            let value : Int := exponentValue power
            (if negative then -value else value, 1 + sign + power.length)
        else (0, 0)
      | [] => (0, 0)
    some (⟨digits, power - fraction.length⟩, length + powerLength)

def hexDigit? (c : Char) : Option Nat :=
  if c.isDigit then some (digitValue c)
  else if 'a' ≤ c ∧ c ≤ 'f' then some (c.toNat - 'a'.toNat + 10)
  else if 'A' ≤ c ∧ c ≤ 'F' then some (c.toNat - 'A'.toNat + 10)
  else none

def hexDigits (chars : List Char) : List Nat :=
  (chars.takeWhile fun c => (hexDigit? c).isSome).filterMap hexDigit?

def hexPrefix (chars : List Char) : Option (List Nat) :=
  match chars with
  | '0' :: mark :: rest =>
    if mark == 'x' || mark == 'X' then
      match hexDigits rest with
      | [] => none
      | digits => some digits
    else none
  | _ => none

/-- The value of hexadecimal digits, summed up from the left in floating
point. -/
def hexValue (digits : List Nat) : Float :=
  digits.foldl (fun sum digit => sum * 16.0 + Float.ofNat digit) 0.0

def beginsWith (chars word : List Char) : Bool :=
  (chars.take word.length).map Char.toLower == word

def readUnsigned (chars : List Char) : Float :=
  match hexPrefix chars with
  | some digits => hexValue digits
  | none =>
    if beginsWith chars ['i', 'n', 'f'] then infinity
    else if beginsWith chars ['n', 'a', 'n'] then nan
    else match decimalPrefix chars with
      | some (decimal, _) => decimal.toNumber
      | none => nan

/-- The number that `chars` begins with after white space and a sign. -/
def readChars (chars : List Char) : Float :=
  match Text.trimStart chars with
  | '-' :: rest => -(readUnsigned rest)
  | '+' :: rest => readUnsigned rest
  | rest => readUnsigned rest

def read (text : String) : Float :=
  readChars text.toList

end StepScript.Number
