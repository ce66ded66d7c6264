import StepScript.Value.Text

/-! Conversions, and calls of host functions.

A host function may read and change the store and may fail; a failure keeps the
changes made before it. Objects convert to numbers and truth values through
their hooks. A hook of the host runs on the spot; one of the program has to be
run by the interpreter, so here it is an error.
-/

set_option autoImplicit false

namespace StepScript

abbrev Act (σ : Type) := ExceptT ValueError (StateM (Store σ))

structure Host (σ : Type) where
  call : Nat → List Value → Act σ Value

/-- Host functions and conversions may ask each other in turn this often. -/
def nestingLimit : Nat := 65536

namespace Host

variable {σ : Type} (host : Host σ)

def answer {α : Type} (result : Except ValueError α) : Act σ α :=
  match result with
  | .ok value => pure value
  | .error e => throw e

def runHook (id : Nat) (conversion : Conversion) : Act σ (Option Value) := do
  match (← get).hook? (.object id) conversion.hook with
  | none => return none
  | some (.script _) => throw (.scriptHook conversion)
  | some (.native f) => return some (← host.call f [])

/-- Conversion to a number, following at most `limit` hooks. -/
def toNumberWithin : Nat → Value → Act σ Float
  | _, .undefined | _, .null => return 0.0
  | _, .boolean b => return if b then 1.0 else 0.0
  | _, .number x => return x
  | _, .string text => return Number.read text
  | _, .function _ => throw (.notConvertible .function)
  | 0, .object _ => throw .nestedTooDeep
  | limit + 1, .object id => do
    match ← host.runHook id .toNumber with
    | some result => toNumberWithin limit result
    | none => return 0.0

def toBooleanWithin : Nat → Value → Act σ Bool
  | _, .undefined | _, .null => return false
  | _, .boolean b => return b
  | _, .number x => return !(x == 0.0) && x == x
  | _, .string text => return !text.isEmpty
  | _, .function _ => return true
  | 0, .object _ => throw .nestedTooDeep
  | limit + 1, .object id => do
    match ← host.runHook id .toBoolean with
    | some result => toBooleanWithin limit result
    | none => return true

def toNumber (value : Value) : Act σ Float :=
  host.toNumberWithin nestingLimit value

def toBoolean (value : Value) : Act σ Bool :=
  host.toBooleanWithin nestingLimit value

def convert (conversion : Conversion) (value : Value) : Act σ Value :=
  match conversion with
  | .toNumber => Value.number <$> host.toNumber value
  | .toBoolean => Value.boolean <$> host.toBoolean value

/-- Calls a value that is, or holds, a host function. -/
def callValue (value : Value) (args : List Value) : Act σ Value := do
  match ← answer ((← get).callee value) with
  | .native f => host.call f args
  | .script id => throw (.scriptCall ((← get).functionName (.script id)))

end Host

end StepScript
