import StepScript.Program.Node

/-! The store of objects and functions.

An object has properties in the order of their first insertion and a prototype
that is asked for what it lacks. Prototype chains end: a walk along one meets no
object twice, so it needs no more steps than there are objects.
-/

set_option autoImplicit false

namespace StepScript

structure Object where
  proto : Value
  props : List (String × Value)
  deriving Repr, Inhabited

/-- `props` with `key` set to `value`: in place if it is there, at the end
otherwise. -/
def insertProp (key : String) (value : Value) :
    List (String × Value) → List (String × Value)
  | [] => [(key, value)]
  | (k, v) :: rest =>
    if k == key then (k, value) :: rest else (k, v) :: insertProp key value rest

structure Closure where
  name : Option String
  params : List String
  body : Code
  scope : Value
  deriving Repr

def anonymous : String := "anonymous"

def Closure.shownName (closure : Closure) : String :=
  closure.name.getD anonymous

def Closure.idle : Closure :=
  ⟨none, [], .ofRose (.leaf (.statement .block)), .null⟩

/-- All objects, closures and host functions. Host functions are kept by name;
`host` is whatever state they share. -/
structure Store (σ : Type) where
  objects : Array Object
  closures : Array Closure
  natives : Array String
  host : σ

namespace Store

variable {σ : Type}

def empty (host : σ) : Store σ :=
  ⟨#[], #[], #[], host⟩

def newObject (s : Store σ) (object : Object) : Nat × Store σ :=
  (s.objects.size, { s with objects := s.objects.push object })

def newClosure (s : Store σ) (closure : Closure) : Nat × Store σ :=
  (s.closures.size, { s with closures := s.closures.push closure })

/-- The closure of a given number. Every number a value holds was given by
`newClosure`; any other one stands for the idle closure. -/
def closure (s : Store σ) (id : Nat) : Closure :=
  s.closures[id]?.getD .idle

def newNative (s : Store σ) (name : String) : Nat × Store σ :=
  (s.natives.size, { s with natives := s.natives.push name })

def own? (s : Store σ) (id : Nat) (key : String) : Option Value :=
  s.objects[id]?.bind fun object => object.props.lookup key

def insert (s : Store σ) (id : Nat) (key : String) (value : Value) : Store σ :=
  { s with objects := s.objects.modify id fun object =>
      { object with props := insertProp key value object.props } }

def setProto (s : Store σ) (id : Nat) (proto : Value) : Store σ :=
  { s with objects := s.objects.modify id fun object => { object with proto := proto } }

def proto? (s : Store σ) (id : Nat) : Option Nat :=
  s.objects[id]?.bind fun object =>
    match object.proto with
    | .object next => some next
    | _ => none

/-- The first of at most `limit` objects along the chain of `id` that has
`key`. -/
def ownerWithin (s : Store σ) (key : String) : Nat → Nat → Option Nat
  | 0, _ => none
  | limit + 1, id =>
    if (s.own? id key).isSome then some id
    else (s.proto? id).bind (s.ownerWithin key limit)

def owner? (s : Store σ) (id : Nat) (key : String) : Option Nat :=
  s.ownerWithin key s.objects.size id

def lookup (s : Store σ) (id : Nat) (key : String) : Option Value :=
  (s.owner? id key).bind (s.own? · key)

def functionName (s : Store σ) : Function → String
  | .native id => s.natives[id]?.getD anonymous
  | .script id => (s.closures[id]?.map (·.shownName)).getD anonymous

def ownName? (s : Store σ) : Value → Option String
  | .function (.script id) => s.closures[id]?.bind (·.name)
  | _ => none

def objectOf (value : Value) : Except ValueError Nat :=
  match value with
  | .object id => .ok id
  | other => .error (.noProperties other.kind)

def get (s : Store σ) (value : Value) (key : String) : Except ValueError Value :=
  (objectOf value).map fun id => (s.lookup id key).getD .undefined

/-- Reads a property through the chain; a missing one is made, as `undefined`,
on the object itself. -/
def index (s : Store σ) (value : Value) (key : String) :
    Except ValueError (Value × Store σ) :=
  (objectOf value).map fun id =>
    match s.lookup id key with
    | some found => (found, s)
    | none => (.undefined, s.insert id key .undefined)

def set (s : Store σ) (value : Value) (key : String) (new : Value) :
    Except ValueError (Store σ) :=
  (objectOf value).map fun id => s.insert id key new

/-- The function that a call of a value runs: the value itself, or the function
an object has under `callHook`. -/
def callee (s : Store σ) (value : Value) : Except ValueError Function :=
  match value with
  | .function f => .ok f
  | .object id =>
    match s.lookup id callHook with
    | some (.function f) => .ok f
    | _ => .error (.notCallable .object)
  | other => .error (.notCallable other.kind)

def isCallable (s : Store σ) (value : Value) : Bool :=
  (s.callee value).isOk

/-- The function behind property `key` of a value, if the value is an object and
the property can be called. -/
def hook? (s : Store σ) (value : Value) (key : String) : Option Function :=
  match value with
  | .object id => (s.lookup id key).bind fun property => (s.callee property).toOption
  | _ => none

def scriptHook? (s : Store σ) (value : Value) (key : String) : Option Nat :=
  match s.hook? value key with
  | some (.script id) => some id
  | _ => none

end Store

end StepScript
