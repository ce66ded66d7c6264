import StepScript.Machine.Frame

/-! What the handlers of nodes work with.

A handler runs one step of one node. It sees its own frame and the store, and it
ends with a move: go down to a child, finish with a value, leave the frame, or
have a function run first.
-/

set_option autoImplicit false

namespace StepScript

inductive Move where
  /-- Go on with a child. -/
  | descend (child : Nat)
  /-- The node is finished and has this value. -/
  | finish (value : Value)
  /-- The frame is finished and gives this value. -/
  | give (value : Value)
  /-- The node's value is what this call gives. -/
  | call (closure : Closure) (args : List Value)
  /-- Come back to this node once this hook has converted `operand`. -/
  | convert (operand : Nat) (conversion : Conversion) (closure : Closure)

structure Local (σ : Type) where
  frame : Frame
  store : Store σ

/-- One step of a node. Changes to the store outlive a failure. -/
abbrev Handler (σ : Type) := ExceptT EvalError (StateM (Local σ))

namespace Handler

variable {σ : Type}

def frame : Handler σ Frame :=
  return (← get).frame

def code : Handler σ Code :=
  return (← get).frame.code

def store : Handler σ (Store σ) :=
  return (← get).store

def modifyFrame (f : Frame → Frame) : Handler σ Unit :=
  modify fun l => { l with frame := f l.frame }

def setStore (s : Store σ) : Handler σ Unit :=
  modify fun l => { l with store := s }

def fault {α : Type} (f : Fault) : Handler σ α :=
  throw (.uncaught f)

/-- Passes on an answer that changes nothing. -/
def ofExcept {α : Type} (result : Except EvalError α) : Handler σ α :=
  match result with
  | .ok value => pure value
  | .error e => throw e

def act {α : Type} (computation : Act σ α) : Handler σ α := do
  let (result, s) := computation.run (← store)
  setStore s
  match result with
  | .ok value => return value
  | .error e => throw (.ofValueError e)

def take (node : Nat) : Handler σ Value := do
  let value := (← frame).peek node
  modifyFrame (·.discard node)
  return value

/-- Takes the value of a finished node, or what its hook made of it. -/
def takeConverted (node : Nat) : Handler σ Value := do
  let value ← take node
  let converted := (← frame).converted.find? node
  modifyFrame (·.discardConverted node)
  return converted.getD value

def visit (node : Nat) : Handler σ Visit := do
  ofExcept ((← frame).visit node)

def visitFolding (node : Nat) : Handler σ (Option Visit) := do
  ofExcept ((← frame).visitFolding node)

def kindName (node : Nat) : Handler σ String := do
  return (((← code).get? node).map (·.kindName)).getD ""

/-- A child that the shape of the node promises. -/
def requiredChild (node position : Nat) : Handler σ Nat := do
  match (← code).child node position with
  | some child => return child
  | none => throw (.breach (.noChild (← kindName node) node position))

def closure (id : Nat) : Handler σ Closure :=
  return (← store).closure id

/-- The first of `operands` whose conversion is up to a closure and that is not
`converted` yet, and that closure. Each operand comes with the value to convert. -/
def pendingHook? (converted : NodeMap Value) (s : Store σ) (conversion : Conversion) :
    List (Nat × Value) → Option (Nat × Nat)
  | [] => none
  | (operand, value) :: rest =>
    if converted.contains operand then pendingHook? converted s conversion rest
    else match s.scriptHook? value conversion.hook with
      | some id => some (operand, id)
      | none => pendingHook? converted s conversion rest

/-- The move that runs the next hook the operands need, if they need one. -/
def runHooks (operands : List (Nat × Value)) (conversion : Conversion) :
    Handler σ (Option Move) := do
  match pendingHook? (← frame).converted (← store) conversion operands with
  | some (operand, id) => return some (.convert operand conversion (← closure id))
  | none => return none

def takeCondition (host : Host σ) (condition : Nat) : Handler σ (Except Move Bool) := do
  let value := (← frame).peek condition
  match ← runHooks [(condition, value)] .toBoolean with
  | some move => return .error move
  | none =>
    let value ← takeConverted condition
    return .ok (← act (host.toBoolean value))

def bind (name : String) (value : Value) : Handler σ Unit := do
  match (← store).set (← frame).scope name value with
  | .ok s => setStore s
  | .error _ => fault (.notDefined name)

end Handler

end StepScript
