import StepScript.Number.Text
import StepScript.Text.Quoted
import StepScript.Value.Store

/-! Values and nodes as text.

An object is written with its own properties. The objects on the way to it are
remembered, and meeting one of them again writes a mark instead of going round
for ever; an object reached twice by different ways is written twice.
-/

set_option autoImplicit false

namespace StepScript

def Value.plainText : Value → String
  | undefined => "undefined"
  | null => "null"
  | boolean b => if b then "true" else "false"
  | number x => Number.text x
  | string text => text
  | function _ => "function"
  | object _ => ""

def cycleMark : String := "\x7b...\x7d"

namespace Store

variable {σ : Type}

def propsText (text : Value → String) (props : List (String × Value)) : String :=
  "\x7b" ++ ",".intercalate (props.map fun (key, value) =>
    Text.quoted key ++ ":" ++ text value) ++ "\x7d"

/-- The text of an object reached through the objects in `path`. The limit is the
number of objects that can still join the path. -/
def objectText (s : Store σ) : Nat → List Nat → Nat → String
  | limit, path, id =>
    if path.contains id then cycleMark
    else match limit with
      | 0 => cycleMark
      | limit + 1 =>
        propsText (fun value => match value with
          | .string text => Text.quoted text
          | .object inner => s.objectText limit (id :: path) inner
          | other => other.plainText)
          ((s.objects[id]?.map (·.props)).getD [])

def text (s : Store σ) (value : Value) : String :=
  match value with
  | .object id => s.objectText s.objects.size [] id
  | other => other.plainText

def shown (s : Store σ) (value : Value) : String :=
  match value with
  | .undefined => "Undefined"
  | .null => "Null"
  | .boolean _ => "Bool(" ++ value.plainText ++ ")"
  | .number x => "Number(" ++ Number.text x ++ ")"
  | .string text => "String(" ++ Text.shown text ++ ")"
  | .function f => "Function(" ++ s.functionName f ++ ")"
  | .object _ => "Object(" ++ s.text value ++ ")"

def nodeText (s : Store σ) : Node → String
  | .declare name => "VarDecl(" ++ name ++ ")"
  | .use name => "VarUse(" ++ name ++ ")"
  | .statement st => "Statement(" ++ st.name ++ ")"
  | .operation o => "Operation(" ++ o.name ++ ")"
  | .literal (.string text) => "Literal(" ++ Text.shown text ++ ")"
  | .literal value => "Literal(" ++ s.text value ++ ")"

/-- Loose equality: both values have the same text. -/
def looseEquals (s : Store σ) (left right : Value) : Bool :=
  s.text left == s.text right

end Store

/-- The text of a node of parsed code, which refers to no objects. -/
def Node.text (node : Node) : String :=
  (Store.empty ()).nodeText node

end StepScript
