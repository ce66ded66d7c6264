import StepScript.Program.Node

/-! Why a run stops early.

Faults are errors of the program; missing constructs are parts of the language
that the machine does not run; breaches are inconsistencies of the machine's own
state, which no parsed program brings about.
-/

set_option autoImplicit false

namespace StepScript

inductive FaultClass where
  | type
  | reference
  | range
  deriving Repr, DecidableEq

def FaultClass.name : FaultClass → String
  | type => "TypeError"
  | reference => "ReferenceError"
  | range => "RangeError"

inductive Fault where
  | value (e : ValueError)
  | cannotRead (base key : String)
  | cannotSet (base key : String)
  | notDefined (name : String)
  | tooManyCalls
  deriving Repr, DecidableEq

def Fault.class : Fault → FaultClass
  | value _ | cannotRead _ _ | cannotSet _ _ => .type
  | notDefined _ => .reference
  | tooManyCalls => .range

def Fault.message : Fault → String
  | value e => e.message
  | cannotRead base key => "Cannot read properties of " ++ base ++ " (reading '" ++ key ++ "')"
  | cannotSet base key => "Cannot set properties of " ++ base ++ " (setting '" ++ key ++ "')"
  | notDefined name => name ++ " is not defined"
  | tooManyCalls => "Maximum call stack size exceeded"

inductive Missing where
  | statement (s : Statement)
  | operation (o : Operation)
  | objectPattern
  | arrayPattern
  deriving Repr, DecidableEq

def Missing.name : Missing → String
  | statement s => s.name
  | operation o => o.name
  | objectPattern => "Object-decomposition"
  | arrayPattern => "Array-decomposition"

/-- A state the machine should not be in. -/
inductive Breach where
  | outsideTree (node size : Nat)
  | rootFinished (node : Nat)
  | unrelated (node previous : Nat)
  | noChild (kind : String) (node position : Nat)
  | noBody (node : Nat)
  | notABody (kind : String)
  | notAParameter (kind : String)
  | notATarget (kind : String)
  deriving Repr, DecidableEq

def Breach.detail : Breach → String
  | outsideTree node size =>
    "node " ++ toString node ++ " is outside a tree of " ++ toString size ++ " nodes"
  | rootFinished node => "root node " ++ toString node ++ " finished without returning"
  | unrelated node previous =>
    "node " ++ toString node ++ " resumed after unrelated node " ++ toString previous
  | noChild kind node position =>
    "`" ++ kind ++ "` node " ++ toString node ++ " has no child " ++ toString position
  | noBody node => "function literal " ++ toString node ++ " has no body"
  | notABody kind => "function body is a `" ++ kind ++ "`"
  | notAParameter kind => "function parameter is a `" ++ kind ++ "`"
  | notATarget kind => "`" ++ kind ++ "` is not an assignment target"

/-- Why a run stops early; `exited` when a host function asked for the end. -/
inductive EvalError where
  | uncaught (fault : Fault)
  | unimplemented (what : Missing)
  | breach (b : Breach)
  | exited (code : Int)
  deriving Repr, DecidableEq

namespace EvalError

def message : EvalError → String
  | uncaught fault => "Uncaught " ++ fault.class.name ++ ": " ++ fault.message
  | unimplemented what => "`" ++ what.name ++ "` is not implemented yet"
  | breach b => "unreachable interpreter state: " ++ b.detail
  | exited code => "exit " ++ toString code

def ofValueError : ValueError → EvalError
  | .exit code => exited code
  | e => uncaught (.value e)

end EvalError

end StepScript
