import StepScript.Value.Host

/-! Operators on values.

`+` joins text as soon as one side is a string; order comparisons compare two
strings as texts and all else as numbers; `==` compares the texts of both sides.
-/

set_option autoImplicit false

namespace StepScript

variable {σ : Type}

def BinaryOp.isNumericOn (op : BinaryOp) (left right : Value) : Bool :=
  match op with
  | .add => !(left.isString || right.isString)
  | .subtract | .multiply | .divide | .remainder => true
  | .less | .lessEqual | .greater | .greaterEqual => !(left.isString && right.isString)
  | .equal | .notEqual | .strictEqual | .strictNotEqual => false

/-- How two numbers compare; a number that is not one compares with none. -/
def compareNumbers (x y : Float) : Option Ordering :=
  if x < y then some .lt
  else if y < x then some .gt
  else if x == y then some .eq
  else none

namespace Host

variable (host : Host σ)

def toNumbers (left right : Value) : Act σ (Float × Float) := do
  let x ← host.toNumber left
  let y ← host.toNumber right
  return (x, y)

def compareValues (left right : Value) : Act σ (Option Ordering) := do
  match left, right with
  | .string a, .string b => return some (compareOfLessAndEq a b)
  | _, _ =>
    let (x, y) ← host.toNumbers left right
    return compareNumbers x y

def binary (op : BinaryOp) (left right : Value) : Act σ Value := do
  match op with
  | .add =>
    if left.isString || right.isString then
      let s ← get
      return .string (s.text left ++ s.text right)
    else
      let (x, y) ← host.toNumbers left right
      return .number (x + y)
  | .subtract =>
    let (x, y) ← host.toNumbers left right
    return .number (x - y)
  | .multiply =>
    let (x, y) ← host.toNumbers left right
    return .number (x * y)
  | .divide =>
    let (x, y) ← host.toNumbers left right
    return .number (x / y)
  | .remainder =>
    let (x, y) ← host.toNumbers left right
    return .number (Number.remainder x y)
  | .less => return .boolean ((← host.compareValues left right) == some .lt)
  | .lessEqual =>
    let order ← host.compareValues left right
    return .boolean (order == some .lt || order == some .eq)
  | .greater => return .boolean ((← host.compareValues left right) == some .gt)
  | .greaterEqual =>
    let order ← host.compareValues left right
    return .boolean (order == some .gt || order == some .eq)
  | .equal => return .boolean ((← get).looseEquals left right)
  | .notEqual => return .boolean (!(← get).looseEquals left right)
  | .strictEqual => return .boolean (left.strictEquals right)
  | .strictNotEqual => return .boolean (!left.strictEquals right)

def unary (op : UnaryOp) (operand : Value) : Act σ Value := do
  match op with
  | .not => return .boolean (!(← host.toBoolean operand))
  | .plus => return .number (← host.toNumber operand)
  | .negate => return .number (-(← host.toNumber operand))
  | .typeof => return .string operand.typeofName
  | .void => return .undefined

/-- What a slot that held `current` holds after an update with `operand`. -/
def update (op : UpdateOp) (current operand : Value) : Act σ Value := do
  match op with
  | .assign => return operand
  | .add => host.binary .add current operand
  | .subtract => host.binary .subtract current operand
  | .multiply => host.binary .multiply current operand
  | .divide => host.binary .divide current operand
  | .remainder => host.binary .remainder current operand
  | .increment => return .number ((← host.toNumber current) + 1.0)
  | .decrement => return .number ((← host.toNumber current) - 1.0)

end Host

def UnaryOp.conversion? : UnaryOp → Option Conversion
  | .not => some .toBoolean
  | .plus | .negate => some .toNumber
  | .typeof | .void => none

def UpdateOp.isNumericOnCurrent (op : UpdateOp) (current operand : Value) : Bool :=
  match op with
  | .assign => false
  | .add => BinaryOp.add.isNumericOn current operand
  | .subtract | .multiply | .divide | .remainder | .increment | .decrement => true

def UpdateOp.isNumericOnOperand (op : UpdateOp) (current operand : Value) : Bool :=
  match op with
  | .assign | .increment | .decrement => false
  | .add => BinaryOp.add.isNumericOn current operand
  | .subtract | .multiply | .divide | .remainder => true

end StepScript
