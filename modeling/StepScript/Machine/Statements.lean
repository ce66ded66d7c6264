import StepScript.Machine.Handler

/-! Steps of statements and declarations. -/

set_option autoImplicit false

namespace StepScript.Handler

variable {σ : Type} (host : Host σ)

/-- The statement a sequence goes on with. The value of the one before is kept
under the node itself. -/
def nextStatement (node : Nat) : Handler σ (Option Nat) := do
  match ← visit node with
  | .enter => return (← code).firstChild node
  | .resume statement =>
    let value ← take statement
    modifyFrame (·.keep node value)
    return (← code).nextSibling statement

/-- The end of a sequence. At the root it ends the frame: a unit gives its last
value, a body `undefined`. -/
def endSequence (node : Nat) : Handler σ Move := do
  let value ← take node
  if ((← code).parent node).isSome then
    return .finish value
  else
    match (← frame).kind with
    | .topLevel => return .give value
    | .function | .conversion _ _ => return .give .undefined

def sequence (node : Nat) : Handler σ Move := do
  match ← nextStatement node with
  | some statement => return .descend statement
  | none => endSequence node

def passThrough (node : Nat) : Handler σ Move := do
  match ← visit node with
  | .enter =>
    match (← code).firstChild node with
    | some child => return .descend child
    | none => return .finish .undefined
  | .resume child => return .finish (← take child)

def chooseBranch (node condition : Nat) : Handler σ Move := do
  match ← takeCondition host condition with
  | .error move => return move
  | .ok true => return .descend (← requiredChild node 1)
  | .ok false =>
    match (← code).child node 2 with
    | some branch => return .descend branch
    | none => return .finish .undefined

def ifElse (node : Nat) : Handler σ Move := do
  let condition ← requiredChild node 0
  match ← visitFolding node with
  | some .enter => return .descend condition
  | some (.resume child) =>
    if child = condition then chooseBranch host node condition
    else return .finish (← take child)
  | none => chooseBranch host node condition

/-- Runs the body again if the finished condition holds; a loop that is done is
`undefined`. -/
def loopTest (condition body : Nat) : Handler σ Move := do
  match ← takeCondition host condition with
  | .error move => return move
  | .ok true => return .descend body
  | .ok false => return .finish .undefined

def whileLoop (node : Nat) : Handler σ Move := do
  let condition ← requiredChild node 0
  let body ← requiredChild node 1
  match ← visitFolding node with
  | some .enter => return .descend condition
  | some (.resume child) =>
    if child = condition then loopTest host condition body
    else
      modifyFrame (·.discard body)
      return .descend condition
  | none => loopTest host condition body

def doLoop (node : Nat) : Handler σ Move := do
  let body ← requiredChild node 0
  let condition ← requiredChild node 1
  match ← visitFolding node with
  | some .enter => return .descend body
  | some (.resume child) =>
    if child = body then
      modifyFrame (·.discard body)
      return .descend condition
    else loopTest host condition body
  | none => loopTest host condition body

def returnValue (node : Nat) : Handler σ Move := do
  match ← visit node with
  | .enter =>
    match (← code).firstChild node with
    | some operand => return .descend operand
    | none => return .give .undefined
  | .resume operand => return .give (← take operand)

def bindFunction (value : Value) : Handler σ Unit := do
  match (← store).ownName? value with
  | some name => Handler.bind name value
  | none => return

def functionDeclaration (node : Nat) : Handler σ Move := do
  match ← visit node with
  | .enter => return .descend (← requiredChild node 0)
  | .resume literal =>
    let value ← take literal
    bindFunction value
    return .finish value

def declaration (node : Nat) (name : String) : Handler σ Move := do
  match ← visit node with
  | .enter =>
    match (← code).firstChild node with
    | some first => return .descend first
    | none =>
      Handler.bind name .undefined
      return .finish .undefined
  | .resume first =>
    let value ← take first
    Handler.bind name value
    return .finish value

def statement (node : Nat) : Statement → Handler σ Move
  | .unit | .block => sequence node
  | .expression => passThrough node
  | .ifElse => ifElse host node
  | .whileLoop => whileLoop host node
  | .doLoop => doLoop host node
  | .ret => returnValue node
  | .functionDeclaration => functionDeclaration node
  | .breakOut => throw (.unimplemented (.statement .breakOut))
  | .continueOn => throw (.unimplemented (.statement .continueOn))
  | .forLoop => throw (.unimplemented (.statement .forLoop))
  | .throw => throw (.unimplemented (.statement .throw))

end StepScript.Handler
