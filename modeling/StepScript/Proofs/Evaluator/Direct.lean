import StepScript.Machine.Step
import StepScript.Proofs.Program.Layout

/-! Evaluation in direct style.

Where the machine goes down to a child and resumes later, the evaluator calls
itself on the subtree; where the machine pushes a frame, the evaluator runs the
body of the closure in a fresh scope. There are no cursors and no memo. What is
done with values, and in which order, is the same. Fuel bounds the depth of the
recursion, and running out of it is no result.
-/

set_option autoImplicit false

namespace StepScript

namespace Outline

variable {α : Type} [Inhabited α]

def branch (t : Outline α) : Nat → Nat → Rose α
  | 0, node => .leaf ((t.get? node).getD default)
  | depth + 1, node => .node ((t.get? node).getD default) ((t.children node).map (t.branch depth))

def toRose (t : Outline α) : Rose α :=
  t.branch t.size 0

theorem branch_place {tree sub : Rose α} {path : List Nat} (found : tree.at? path = some sub)
    (depth : Nat) (enough : sub.size ≤ depth) :
    (ofRose tree).branch depth (tree.place path) = sub := by
  -- By induction on the depth, since a child is smaller than its parent.
  induction depth generalizing path sub with
  | zero =>
    have := sub.size_pos
    omega
  | succ depth ih =>
    obtain ⟨value, children⟩ := sub
    rw [branch, get?_place found, children_place found]
    congr 1
    apply List.ext_getElem?
    intro i
    simp only [Rose.childPaths, List.getElem?_map, Rose.children]
    by_cases bound : i < children.length
    · have below : tree.at? (path ++ [i]) = some children[i] := by
        rw [Rose.at?_snoc found, Rose.children, List.getElem?_eq_getElem bound]
      have smaller : children[i].size ≤ depth := by
        have split := Rose.forestSize_split (List.getElem?_eq_getElem bound)
        rw [Rose.size_eq, Rose.children, split] at enough
        omega
      simp [bound, ih below smaller]
    · simp [bound]

@[simp] theorem toRose_ofRose (tree : Rose α) : (ofRose tree).toRose = tree := by
  unfold toRose
  rw [size_ofRose]
  exact branch_place (Rose.at?_nil tree) tree.size (Nat.le_refl _)

end Outline

inductive Exit where
  | failed (e : EvalError)
  | returned (value : Value)

/-- An evaluation. Changes to the store outlive an exit; `none` says that the fuel ran out. -/
abbrev Eval (σ : Type) := ExceptT Exit (StateT (Store σ) Option)

/-- The scope of a running unit, call or hook, and how many are running. -/
structure Activation where
  scope : Value
  depth : Nat

inductive Reference where
  | binding (name : String)
  | member (base key : Value)

namespace Eval

variable {σ : Type}

def store : Eval σ (Store σ) := get

def setStore (s : Store σ) : Eval σ Unit := set s

def fail {α : Type} (e : EvalError) : Eval σ α := throw (.failed e)

def act {α : Type} (computation : Act σ α) : Eval σ α :=
  ExceptT.mk fun s =>
    match computation.run s with
    | (.ok value, s) => some (.ok value, s)
    | (.error e, s) => some (.error (.failed (.ofValueError e)), s)

def returning (body : Eval σ Value) : Eval σ Value :=
  tryCatch body fun
    | .returned value => return value
    | .failed e => fail e

def bind (scope : Value) (name : String) (value : Value) : Eval σ Unit := do
  match (← store).set scope name value with
  | .ok s => setStore s
  | .error _ => fail (.uncaught (.notDefined name))

def bindFunction (scope value : Value) : Eval σ Unit := do
  match (← store).ownName? value with
  | some name => bind scope name value
  | none => return

def readName (scope : Value) (name : String) : Eval σ Value := do
  match (← store).index scope name with
  | .ok (value, s) =>
    setStore s
    return value
  | .error _ => fail (.uncaught (.notDefined name))

def readMember (object key : Value) : Eval σ Value := do
  let name := (← store).text key
  match (← store).index object name with
  | .ok (value, s) =>
    setStore s
    return value
  | .error _ => fail (.uncaught (.cannotRead ((← store).text object) name))

def fillObject (id : Nat) : List Value → Eval σ Unit
  | key :: value :: rest => do
    let name := (← store).text key
    setStore ((← store).insert id name value)
    fillObject id rest
  | _ => return

def makeObject (values : List Value) : Eval σ Value := do
  let (id, s) := (← store).newObject ⟨.null, []⟩
  setStore s
  fillObject id values
  return .object id

def makeClosure (closure : Closure) : Eval σ Value := do
  let (id, s) := (← store).newClosure closure
  setStore s
  return .function (.script id)

end Eval

namespace Reference

variable {σ : Type}

def peek (scope : Value) (s : Store σ) : Reference → Value
  | binding name => (s.get scope name).toOption.getD .undefined
  | member base key => (s.get base (s.text key)).toOption.getD .undefined

def resolve (scope : Value) : Reference → Eval σ Slot
  | binding name => do
    match scope with
    | .object id => return .ofBinding (← Eval.store) id name
    | _ => Eval.fail (.uncaught (.notDefined name))
  | member base key => do
    let name := (← Eval.store).text key
    match base with
    | .object id => return ⟨id, name⟩
    | other => Eval.fail (.uncaught (.cannotSet ((← Eval.store).text other) name))

end Reference

def Node.text? : Node → Option String
  | .literal (.string text) => some text
  | _ => none

namespace Evaluator

open Eval

variable {σ : Type} (host : Host σ) (depthLimit : Nat)

def sequence (eval : Rose Node → Eval σ Value) : Value → List (Rose Node) → Eval σ Value
  | value, [] => return value
  | _, tree :: rest => do
    let value ← eval tree
    sequence eval value rest

def evalAll (eval : Rose Node → Eval σ Value) : List (Rose Node) → Eval σ (List Value)
  | [] => return []
  | tree :: rest => do
    let value ← eval tree
    let values ← evalAll eval rest
    return value :: values

section Rules

-- `eval` evaluates with less fuel, of which `fuel` is left.
variable (fuel : Nat) (eval : Activation → Rose Node → Eval σ Value) (here : Activation)

def invoke (closure : Closure) (args : List Value) : Eval σ Value := do
  if depthLimit ≤ here.depth then fail (.uncaught .tooManyCalls)
  else
    let (id, s) := (← store).newObject ⟨closure.scope, Machine.bindParams closure.params args []⟩
    setStore s
    returning do
      let _ ← sequence (eval ⟨.object id, here.depth + 1⟩) .undefined closure.body.toRose.children
      return .undefined

/-- Runs the hooks that the operands need, as long as there is one. -/
def settle (conversion : Conversion) (operands : Store σ → List (Nat × Value)) :
    Nat → NodeMap Value → Eval σ (NodeMap Value)
  | 0, _ => fun _ => none
  | rounds + 1, converted => do
    -- A hook may change the store, so the operands are looked at again after each.
    let s ← store
    match Handler.pendingHook? converted s conversion (operands s) with
    | none => return converted
    | some (operand, id) =>
      let result ← invoke depthLimit eval here (s.closure id) []
      let value ← act (host.convert conversion result)
      settle conversion operands rounds (converted.insert operand value)

/-- What hooks make of operands that are fixed values, numbered from `0`. -/
def settleValues (conversion : Conversion) (values : List Value) : Eval σ (NodeMap Value) :=
  settle host depthLimit eval here conversion
    (fun _ => (List.range values.length).zip values) (fuel + 1) .empty

def condition (test : Rose Node) : Eval σ Bool := do
  let value ← eval here test
  let converted ← settleValues host depthLimit fuel eval here .toBoolean [value]
  act (host.toBoolean ((converted.find? 0).getD value))

def binary (op : BinaryOp) (left right : Rose Node) : Eval σ Value := do
  let x ← eval here left
  let y ← eval here right
  let converted ← settleValues host depthLimit fuel eval here .toNumber
    (if op.isNumericOn x y then [x, y] else [])
  act (host.binary op ((converted.find? 0).getD x) ((converted.find? 1).getD y))

def unary (op : UnaryOp) (operand : Rose Node) : Eval σ Value := do
  let x ← eval here operand
  match op.conversion? with
  | some conversion =>
    let converted ← settleValues host depthLimit fuel eval here conversion [x]
    act (host.unary op ((converted.find? 0).getD x))
  | none => act (host.unary op x)

def logical (stopsOn : Bool) (left right : Rose Node) : Eval σ Value := do
  let x ← eval here left
  let converted ← settleValues host depthLimit fuel eval here .toBoolean [x]
  let truth ← act (host.toBoolean ((converted.find? 0).getD x))
  -- What a hook makes of the left operand only decides; the value is the operand itself.
  if truth = stopsOn then return x
  else eval here right

-- The parts of a target are evaluated before the operand, and its slot is found after it.
def reference (target : Rose Node) : Eval σ Reference :=
  match target.value, target.children with
  | .use name, _ => return .binding name
  | .operation .member, [base, key] => do
    let object ← eval here base
    let name ← eval here key
    return .member object name
  | node, _ => fail (.breach (.notATarget node.kindName))

def operandValue : Option (Rose Node) → Eval σ Value
  | some tree => eval here tree
  | none => return .undefined

def assignment (op : UpdateOp) (givesOld : Bool) (target : Rose Node)
    (operand : Option (Rose Node)) : Eval σ Value := do
  let place ← reference eval here target
  let value ← operandValue eval here operand
  -- In the conversions `0` stands for the old value and `1` for the operand.
  let converted ← settle host depthLimit eval here .toNumber
    (fun s => Handler.updateOperands op 0 (place.peek here.scope s) (operand.map fun _ => 1) value)
    (fuel + 1) .empty
  let slot ← place.resolve here.scope
  let old := (converted.find? 0).getD (slot.read (← store))
  let new ← act (host.update op old ((converted.find? 1).getD value))
  setStore (slot.write (← store) new)
  return if givesOld then old else new

def callValue (function : Value) (args : List Value) : Eval σ Value := do
  match (← store).callee function with
  | .error e => fail (.uncaught (.value e))
  | .ok (.native id) => act (host.call id args)
  | .ok (.script id) => invoke depthLimit eval here ((← store).closure id) args

def statement (again : Eval σ Value) : Statement → List (Rose Node) → Eval σ Value
  | .unit, parts => sequence (eval here) .undefined parts
  | .block, parts => sequence (eval here) .undefined parts
  | .expression, [inner] => eval here inner
  | .ifElse, [test, branch] => do
    if ← condition host depthLimit fuel eval here test then eval here branch
    else return .undefined
  | .ifElse, [test, branch, other] => do
    if ← condition host depthLimit fuel eval here test then eval here branch
    else eval here other
  | .whileLoop, [test, body] => do
    if ← condition host depthLimit fuel eval here test then
      let _ ← eval here body
      again
    else return .undefined
  | .doLoop, [body, test] => do
    let _ ← eval here body
    if ← condition host depthLimit fuel eval here test then again
    else return .undefined
  | .ret, [] => throw (.returned .undefined)
  | .ret, [operand] => do
    let value ← eval here operand
    throw (.returned value)
  | .functionDeclaration, [literal] => do
    let value ← eval here literal
    bindFunction here.scope value
    return value
  | s, _ => fail (.unimplemented (.statement s))

def construct : Operation → List (Rose Node) → Eval σ Value
  | .grouping, [inner] => eval here inner
  | .objectLiteral, entries => do makeObject (← evalAll (eval here) entries)
  | .functionLiteral, title :: rest =>
    makeClosure ⟨title.value.text?, rest.dropLast.filterMap (·.value.text?),
      .ofRose (rest.getLast?.getD (.leaf (.statement .block))), here.scope⟩
  | .member, [base, key] => do
    let object ← eval here base
    let name ← eval here key
    readMember object name
  | .call, callee :: args => do
    let function ← eval here callee
    let values ← evalAll (eval here) args
    callValue host depthLimit eval here function values
  | .logicalAnd, [left, right] => logical host depthLimit fuel eval here false left right
  | .logicalOr, [left, right] => logical host depthLimit fuel eval here true left right
  | .conditional, [test, first, second] => do
    if ← condition host depthLimit fuel eval here test then eval here first
    else eval here second
  | o, _ => fail (.unimplemented (.operation o))

def operation (o : Operation) (parts : List (Rose Node)) : Eval σ Value :=
  match o.binary?, o.unary?, o.update?, parts with
  | some op, _, _, [left, right] => binary host depthLimit fuel eval here op left right
  | none, some op, _, [operand] => unary host depthLimit fuel eval here op operand
  | none, none, some op, target :: rest =>
    assignment host depthLimit fuel eval here op (o == .postIncrement || o == .postDecrement)
      target rest.head?
  | _, _, _, parts => construct host depthLimit fuel eval here o parts

def rule (tree : Rose Node) : Eval σ Value :=
  match tree.value, tree.children with
  | .statement s, parts => statement host depthLimit fuel eval here (eval here tree) s parts
  | .operation o, parts => operation host depthLimit fuel eval here o parts
  | .declare name, [] => do
    Eval.bind here.scope name .undefined
    return .undefined
  | .declare name, first :: _ => do
    let value ← eval here first
    Eval.bind here.scope name value
    return value
  | .use name, _ => readName here.scope name
  | .literal value, _ => return value

end Rules

def eval : Nat → Activation → Rose Node → Eval σ Value
  | 0, _, _ => fun _ => none
  | fuel + 1, here, tree => rule host depthLimit fuel (eval fuel) here tree

def run (fuel : Nat) (global : Value) (tree : Rose Node) (s : Store σ) :
    Option (Except EvalError Value × Store σ) :=
  (ExceptT.run (sequence (eval host depthLimit fuel ⟨global, 1⟩) .undefined tree.children) s).map
    fun
      | (.ok value, s) => (.ok value, s)
      | (.error (.returned value), s) => (.ok value, s)
      | (.error (.failed e), s) => (.error e, s)

end Evaluator

end StepScript
