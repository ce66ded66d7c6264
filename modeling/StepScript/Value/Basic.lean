/-! Run-time values.

Objects and functions are shared: a value holds only the number under which the
store keeps the object, the closure or the host function.
-/

set_option autoImplicit false

namespace StepScript

inductive Function where
  | native (id : Nat)
  | script (id : Nat)
  deriving Repr, DecidableEq

inductive Value where
  | undefined
  | null
  | boolean (b : Bool)
  | number (x : Float)
  | string (text : String)
  | function (f : Function)
  | object (id : Nat)
  deriving Repr

instance : Inhabited Value := ⟨.undefined⟩

inductive Kind where
  | undefined | null | boolean | number | string | function | object
  deriving Repr, DecidableEq

def Kind.name : Kind → String
  | undefined => "undefined"
  | null => "null"
  | boolean => "boolean"
  | number => "number"
  | string => "string"
  | function => "function"
  | object => "object"

namespace Value

def kind : Value → Kind
  | undefined => .undefined
  | null => .null
  | boolean _ => .boolean
  | number _ => .number
  | string _ => .string
  | function _ => .function
  | object _ => .object

/-- What `typeof` gives: `null` counts as an object. -/
def typeofName : Value → String
  | null => "object"
  | value => value.kind.name

def isString : Value → Bool
  | string _ => true
  | _ => false

/-- Same kind and same content; objects and functions by identity. -/
def strictEquals : Value → Value → Bool
  | undefined, undefined => true
  | null, null => true
  | boolean a, boolean b => a == b
  | number a, number b => a == b
  | string a, string b => a == b
  | function a, function b => a == b
  | object a, object b => a == b
  | _, _ => false

end Value

inductive Conversion where
  | toNumber
  | toBoolean
  deriving Repr, DecidableEq

/-- The property that holds an object's own way of converting. -/
def Conversion.hook : Conversion → String
  | toNumber => "to_double"
  | toBoolean => "to_bool"

def callHook : String := "operator()"

/-- Why an operation on values failed. `exit` is no failure of the program: a
host function asked for the process to end with that code. -/
inductive ValueError where
  | notConvertible (kind : Kind)
  | noProperties (kind : Kind)
  | notCallable (kind : Kind)
  | scriptHook (conversion : Conversion)
  | scriptCall (name : String)
  | host (message : String)
  | nestedTooDeep
  | exit (code : Int)
  deriving Repr, DecidableEq

def ValueError.message : ValueError → String
  | notConvertible kind => "cannot convert to number a value of type " ++ kind.name
  | noProperties kind => "cannot access properties of a value of type " ++ kind.name
  | notCallable kind => kind.name ++ " is not a function"
  | scriptHook conversion => "conversion hook `" ++ conversion.hook ++ "` is a script function"
  | scriptCall name => "`" ++ name ++ "` must be called through the interpreter"
  | host message => message
  | nestedTooDeep => "host functions nest too deeply"
  | exit code => "exit " ++ toString code

end StepScript
