import StepScript.Outline.Basic
import StepScript.Program.Operation
import StepScript.Value.Basic

/-! The nodes of program trees.

Child order carries meaning:

* a unit or a block has its statements;
* an expression statement has one expression or one declaration;
* `if` has a condition, a branch and perhaps another branch; `while` a condition
  and a body; `do` a body and a condition; `for` a start, a condition, a step and
  a body, where the literal `undefined` fills an empty place;
* `return` and `throw` have at most one expression;
* a declared function has one function literal, and that has a name or
  `undefined`, its parameters, and a block;
* a declaration has at most its first value;
* an object literal has keys and values in turn;
* all other operations have their operands from left to right.
-/

set_option autoImplicit false

namespace StepScript

inductive Statement where
  | unit | expression | block | ifElse | whileLoop | doLoop | forLoop
  | ret | breakOut | continueOn | throw | functionDeclaration
  deriving Repr, DecidableEq

def Statement.name : Statement → String
  | unit => "TranslationUnit"
  | expression => "Expression"
  | block => "Block"
  | ifElse => "If"
  | whileLoop => "While"
  | doLoop => "DoWhile"
  | forLoop => "For"
  | ret => "Return"
  | breakOut => "Break"
  | continueOn => "Continue"
  | throw => "Throw"
  | functionDeclaration => "FunctionDeclaration"

def Statement.all : List Statement :=
  [unit, expression, block, ifElse, whileLoop, doLoop, forLoop, ret, breakOut, continueOn,
    throw, functionDeclaration]

def Statement.ofName? (name : String) : Option Statement :=
  all.find? (·.name == name)

inductive Node where
  | declare (name : String)
  | use (name : String)
  | statement (s : Statement)
  | operation (o : Operation)
  | literal (value : Value)
  deriving Repr

instance : Inhabited Node := ⟨.literal .undefined⟩

abbrev Code := Outline Node

namespace Node

def kindName : Node → String
  | declare _ => "VarDecl"
  | use _ => "VarUse"
  | statement s => s.name
  | operation o => o.name
  | literal _ => "Literal"

def isOperation (node : Node) (o : Operation) : Bool :=
  match node with
  | operation other => other == o
  | _ => false

def isStatement (node : Node) (s : Statement) : Bool :=
  match node with
  | statement other => other == s
  | _ => false

/-- Whether the node can be written to: a name or a member. -/
def isAssignable : Node → Bool
  | use _ => true
  | operation o => o == .member
  | _ => false

end Node

end StepScript
