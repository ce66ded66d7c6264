import StepScript.Machine.Statements
import StepScript.Operator.Evaluate
import StepScript.Outline.Edit

/-! Steps of expressions. -/

set_option autoImplicit false

namespace StepScript

/-- A place that can be read and written: a property of an object or a binding of
a scope. -/
structure Slot where
  object : Nat
  key : String
  deriving Repr, DecidableEq

namespace Slot

variable {σ : Type}

/-- The slot of `name` as seen from a scope: in the scope that has it, or else in
the scope itself. -/
def ofBinding (s : Store σ) (scope : Nat) (name : String) : Slot :=
  ⟨(s.owner? scope name).getD scope, name⟩

def read (slot : Slot) (s : Store σ) : Value :=
  (s.lookup slot.object slot.key).getD .undefined

def write (slot : Slot) (s : Store σ) (value : Value) : Store σ :=
  s.insert slot.object slot.key value

end Slot

namespace Handler

variable {σ : Type} (host : Host σ)

def binaryHook (op : BinaryOp) (left right : Nat) : Handler σ (Option Move) := do
  let x := (← frame).peek left
  let y := (← frame).peek right
  if op.isNumericOn x y then runHooks [(left, x), (right, y)] .toNumber
  else return none

def foldBinary (op : BinaryOp) (left right : Nat) : Handler σ Move := do
  match ← binaryHook op left right with
  | some move => return move
  | none =>
    let x ← takeConverted left
    let y ← takeConverted right
    return .finish (← act (host.binary op x y))

def binary (node : Nat) (op : BinaryOp) : Handler σ Move := do
  let left ← requiredChild node 0
  let right ← requiredChild node 1
  match ← visitFolding node with
  | some .enter => return .descend left
  | some (.resume child) =>
    if child = left then return .descend right
    else foldBinary host op left right
  | none => foldBinary host op left right

def unaryHook (op : UnaryOp) (operand : Nat) : Handler σ (Option Move) := do
  match op.conversion? with
  | some conversion => runHooks [(operand, (← frame).peek operand)] conversion
  | none => return none

def foldUnary (op : UnaryOp) (operand : Nat) : Handler σ Move := do
  match ← unaryHook op operand with
  | some move => return move
  | none =>
    let value ← takeConverted operand
    return .finish (← act (host.unary op value))

def unary (node : Nat) (op : UnaryOp) : Handler σ Move := do
  let operand ← requiredChild node 0
  match ← visitFolding node with
  | some .enter => return .descend operand
  | _ => foldUnary host op operand

/-- Decides by the finished left operand. The operand itself is the value; what
its hook made of it only decides. -/
def foldLogical (stopsOn : Bool) (left right : Nat) : Handler σ Move := do
  let value := (← frame).peek left
  match ← runHooks [(left, value)] .toBoolean with
  | some move => return move
  | none =>
    let value ← take left
    let converted := (← frame).converted.find? left
    modifyFrame (·.discardConverted left)
    let truth ← act (host.toBoolean (converted.getD value))
    if truth = stopsOn then return .finish value
    else return .descend right

/-- `&&` and `||`: the right operand counts unless the left one is `stopsOn`. -/
def logical (node : Nat) (stopsOn : Bool) : Handler σ Move := do
  let left ← requiredChild node 0
  let right ← requiredChild node 1
  match ← visitFolding node with
  | some .enter => return .descend left
  | some (.resume child) =>
    if child = left then foldLogical host stopsOn left right
    else return .finish (← take right)
  | none => foldLogical host stopsOn left right

def chooseOperand (node condition : Nat) : Handler σ Move := do
  match ← takeCondition host condition with
  | .error move => return move
  | .ok true => return .descend (← requiredChild node 1)
  | .ok false => return .descend (← requiredChild node 2)

def conditional (node : Nat) : Handler σ Move := do
  let condition ← requiredChild node 0
  match ← visitFolding node with
  | some .enter => return .descend condition
  | some (.resume child) =>
    if child = condition then chooseOperand host node condition
    else return .finish (← take child)
  | none => chooseOperand host node condition

def fillObject (id : Nat) : List Nat → Handler σ Unit
  | key :: value :: rest => do
    let name := (← store).text (← take key)
    let content ← take value
    setStore ((← store).insert id name content)
    fillObject id rest
  | _ => return

/-- The child that a node which evaluates all its children goes on with. -/
def nextChild (node : Nat) : Handler σ (Option Nat) := do
  match ← visit node with
  | .enter => return (← code).firstChild node
  | .resume child => return (← code).nextSibling child

/-- An object literal; a key that comes twice keeps its first place and its last
value. -/
def objectLiteral (node : Nat) : Handler σ Move := do
  match ← nextChild node with
  | some child => return .descend child
  | none =>
    let (id, s) := (← store).newObject ⟨.null, []⟩
    setStore s
    fillObject id ((← code).children node)
    return .finish (.object id)

def literalName (code : Code) (node : Nat) : Option String :=
  match code.get? node with
  | some (.literal (.string name)) => some name
  | _ => none

def parameterNames : List Nat → Handler σ (List String)
  | [] => return []
  | param :: rest => do
    match literalName (← code) param with
    | some name => return name :: (← parameterNames rest)
    | none => throw (.breach (.notAParameter (← kindName param)))

def checkBody (body : Nat) : Handler σ Unit := do
  if (((← code).get? body).map (·.isStatement .block)).getD false then return
  else throw (.breach (.notABody (← kindName body)))

def functionLiteral (node : Nat) : Handler σ Move := do
  let children := (← code).children node
  match children.getLast? with
  | none => throw (.breach (.noBody node))
  | some body =>
    checkBody body
    let header := children.dropLast
    let name := header.head?.bind (literalName (← code))
    let params ← parameterNames header.tail
    let closure : Closure := ⟨name, params, (← code).subtree body, (← frame).scope⟩
    let (id, s) := (← store).newClosure closure
    setStore s
    return .finish (.function (.script id))

def isTarget (code : Code) (node : Nat) : Bool :=
  match code.parent node with
  | some parent =>
    (match code.get? parent with
      | some (.operation o) => o.isAssignment
      | _ => false) && code.firstChild parent == some node
  | none => false

def readMember (base key : Nat) : Handler σ Move := do
  let object ← take base
  let name := (← store).text (← take key)
  match (← store).index object name with
  | .ok (value, s) =>
    setStore s
    return .finish value
  | .error _ => fault (.cannotRead ((← store).text object) name)

/-- A member access. What an assignment writes to only has its parts evaluated;
the assignment itself resolves it when its right side is ready. -/
def memberAccess (node : Nat) : Handler σ Move := do
  let base ← requiredChild node 0
  let key ← requiredChild node 1
  match ← visit node with
  | .enter => return .descend base
  | .resume child =>
    if child = base then return .descend key
    else if isTarget (← code) node then return .finish .undefined
    else readMember base key

/-- What the target of an assignment holds, read without taking its parts. -/
def peekTarget (target : Nat) : Handler σ Value := do
  match (← code).get? target with
  | some (.use name) =>
    return ((← store).get (← frame).scope name).toOption.getD .undefined
  | some (.operation .member) =>
    let base := (← frame).peek (← requiredChild target 0)
    let key := (← frame).peek (← requiredChild target 1)
    let s ← store
    return (s.get base (s.text key)).toOption.getD .undefined
  | _ => return .undefined

/-- The slot behind the target of an assignment, taking its parts. -/
def resolveTarget (target : Nat) : Handler σ Slot := do
  match (← code).get? target with
  | some (.use name) =>
    match (← frame).scope with
    | .object scope => return .ofBinding (← store) scope name
    | _ => fault (.notDefined name)
  | some (.operation .member) =>
    modifyFrame (·.discard target)
    let base ← take (← requiredChild target 0)
    let key := (← store).text (← take (← requiredChild target 1))
    match base with
    | .object id => return ⟨id, key⟩
    | other => fault (.cannotSet ((← store).text other) key)
  | some (.operation .objectLiteral) => throw (.unimplemented .objectPattern)
  | some (.operation .arrayLiteral) => throw (.unimplemented .arrayPattern)
  | _ => throw (.breach (.notATarget (← kindName target)))

/-- The operands of an update that are turned into numbers. The old value goes
under the assignment itself. -/
def updateOperands (op : UpdateOp) (node : Nat) (current : Value) (operand : Option Nat)
    (value : Value) : List (Nat × Value) :=
  (if op.isNumericOnCurrent current value then [(node, current)] else []) ++
    match operand with
    | some operand => if op.isNumericOnOperand current value then [(operand, value)] else []
    | none => []

def updateHook (op : UpdateOp) (node target : Nat) (operand : Option Nat) :
    Handler σ (Option Move) := do
  if op = .assign then return none
  else
    let current ← peekTarget target
    let value := (operand.map (← frame).peek).getD .undefined
    runHooks (updateOperands op node current operand value) .toNumber

def takeOperand : Option Nat → Handler σ Value
  | some operand => takeConverted operand
  | none => return .undefined

def foldUpdate (op : UpdateOp) (givesOld : Bool) (node target : Nat) (operand : Option Nat) :
    Handler σ Move := do
  match ← updateHook op node target operand with
  | some move => return move
  | none =>
    let value ← takeOperand operand
    let converted := (← frame).converted.find? node
    modifyFrame (·.discardConverted node)
    let slot ← resolveTarget target
    let old := converted.getD (slot.read (← store))
    let new ← act (host.update op old value)
    setStore (slot.write (← store) new)
    return .finish (if givesOld then old else new)

/-- The part of an assignment to go on with: a member that is written to, then
the right side. -/
def nextPart (node target : Nat) (operand : Option Nat) : Handler σ (Option Nat) := do
  match ← visitFolding node with
  | some .enter =>
    if (((← code).get? target).map (·.isOperation .member)).getD false then return some target
    else return operand
  | some (.resume child) => return if child = target then operand else none
  | none => return none

def assignment (node : Nat) (op : UpdateOp) (givesOld : Bool) : Handler σ Move := do
  let target ← requiredChild node 0
  let operand := (← code).child node 1
  match ← nextPart node target operand with
  | some next => return .descend next
  | none => foldUpdate host op givesOld node target operand

def takeAll : List Nat → Handler σ (List Value)
  | [] => return []
  | node :: rest => return (← take node) :: (← takeAll rest)

/-- A call. A host function runs on the spot. -/
def call (node : Nat) : Handler σ Move := do
  let callee ← requiredChild node 0
  match ← nextChild node with
  | some child => return .descend child
  | none =>
    let args ← takeAll ((← code).children node).tail
    let function ← take callee
    match (← store).callee function with
    | .error e => fault (.value e)
    | .ok (.native id) => return .finish (← act (host.call id args))
    | .ok (.script id) => return .call (← closure id) args

def construct (node : Nat) : Operation → Handler σ Move
  | .grouping => passThrough node
  | .objectLiteral => objectLiteral node
  | .functionLiteral => functionLiteral node
  | .member => memberAccess node
  | .call => call host node
  | .logicalAnd => logical host node false
  | .logicalOr => logical host node true
  | .conditional => conditional host node
  | o => throw (.unimplemented (.operation o))

def operation (node : Nat) (o : Operation) : Handler σ Move :=
  match o.binary?, o.unary?, o.update? with
  | some op, _, _ => binary host node op
  | none, some op, _ => unary host node op
  | none, none, some op =>
    assignment host node op (o == .postIncrement || o == .postDecrement)
  | none, none, none => construct host node o

theorem operation_of_binary? {o : Operation} {op : BinaryOp} (binary : o.binary? = some op)
    (node : Nat) : operation host node o = Handler.binary host node op := by
  unfold operation
  rw [binary]

theorem operation_of_unary? {o : Operation} {op : UnaryOp} (unary : o.unary? = some op)
    (node : Nat) : operation host node o = Handler.unary host node op := by
  cases o <;> cases unary <;> rfl

theorem operation_of_update? {o : Operation} {op : UpdateOp} (update : o.update? = some op)
    (node : Nat) :
    operation host node o =
      assignment host node op (o == .postIncrement || o == .postDecrement) := by
  cases o <;> cases update <;> rfl

theorem operation_of_none {o : Operation} (binary : o.binary? = none) (unary : o.unary? = none)
    (update : o.update? = none) (node : Nat) :
    operation host node o = construct host node o := by
  unfold operation
  rw [binary, unary, update]

/-- The use of a name; one that no scope has is made in the innermost. -/
def nameUse (name : String) : Handler σ Move := do
  match (← store).index (← frame).scope name with
  | .ok (value, s) =>
    setStore s
    return .finish value
  | .error _ => fault (.notDefined name)

def node (position : Nat) : Handler σ Move := do
  match (← code).get? position with
  | some (.statement s) => statement host position s
  | some (.operation o) => operation host position o
  | some (.declare name) => declaration position name
  | some (.use name) => nameUse name
  | some (.literal value) => return .finish value
  | none => throw (.breach (.outsideTree position (← code).size))

end Handler

end StepScript
