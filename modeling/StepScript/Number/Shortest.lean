import StepScript.Number.Binary

/-! Shortest decimal digits.

The numbers that round to `mantissa * 2 ^ exponent` fill an interval, whose ends
belong to it when the mantissa is even. On the grid of decimals with one digit,
then two, and so on, the two neighbours of the value are tried; the first grid
with a neighbour in the interval gives the digits.
-/

set_option autoImplicit false

namespace StepScript.Number

structure Decimal where
  digits : Nat
  exponent : Int
  deriving Repr, DecidableEq

/-- The interval of reals that round to a number, in units of
`2 ^ exponent`. -/
structure Interval where
  low : Nat
  value : Nat
  high : Nat
  exponent : Int
  closed : Bool
  deriving Repr, DecidableEq

/-- The interval around `mantissa * 2 ^ exponent`. Below a power of two numbers
lie twice as dense, so there the lower half is shorter. -/
def Interval.around (mantissa : Nat) (exponent : Int) : Interval where
  low := 4 * mantissa - (if mantissa = hidden ∧ leastExponent < exponent then 1 else 2)
  value := 4 * mantissa
  high := 4 * mantissa + 2
  exponent := exponent - 2
  closed := mantissa % 2 == 0

def Interval.contains (i : Interval) (num den : Nat) : Bool :=
  let (lowNum, lowDen) := ratio i.low 2 i.exponent
  let (highNum, highDen) := ratio i.high 2 i.exponent
  if i.closed then lowNum * den ≤ num * lowDen && num * highDen ≤ highNum * den
  else lowNum * den < num * lowDen && num * highDen < highNum * den

/-- The `k` with `10 ^ k ≤ num / den < 10 ^ (k + 1)`, for a positive ratio. -/
def decimalExponent (num den : Nat) : Int :=
  if den ≤ num then
    ((Nat.toDigits 10 (num / den)).length : Int) - 1
  else
    let places := (Nat.toDigits 10 (den / num)).length
    if den ≤ num * Nat.pow 10 (places - 1) then 1 - (places : Int) else -(places : Int)

/-- The neighbour of the interval's value on the grid of multiples of
`10 ^ exponent` that lies in the interval: the nearer of two, the upper one when
both are equally near. -/
def Interval.gridPoint? (i : Interval) (exponent : Int) : Option Nat :=
  let (num, den) := ratio i.value 2 i.exponent
  let (unitNum, unitDen) := ratio 1 10 exponent
  let below := num * unitDen / (den * unitNum)
  let rest := num * unitDen % (den * unitNum)
  let lower := i.contains (below * unitNum) unitDen
  let upper := i.contains ((below + 1) * unitNum) unitDen
  if lower && upper then
    if den * unitNum ≤ 2 * rest then some (below + 1) else some below
  else if lower then some below
  else if upper then some (below + 1)
  else none

/-- The first grid point in the interval, from the grid of `10 ^ exponent` on
through at most `limit` finer grids. -/
def Interval.firstPoint (i : Interval) : Nat → Int → Decimal
  | 0, exponent => ⟨0, exponent⟩
  | limit + 1, exponent =>
    match i.gridPoint? exponent with
    | some digits => ⟨digits, exponent⟩
    | none => i.firstPoint limit (exponent - 1)

def mostDigits : Nat := 17

/-- The shortest decimal that reads back as `mantissa * 2 ^ exponent`, for a
positive mantissa. -/
def shortest (mantissa : Nat) (exponent : Int) : Decimal :=
  let (num, den) := ratio mantissa 2 exponent
  (Interval.around mantissa exponent).firstPoint mostDigits (decimalExponent num den)

end StepScript.Number
