import StepScript.Program.Node
import StepScript.Proofs.Outline.Paths

/-! The shape of program trees.

`Node.fits` is the table of children: how many a node has, in which order, and of
which kinds. A tree is `Shaped` if all its nodes fit. Shaped subtrees of shaped
trees are what the machine walks over, so the table is also what it relies on
when it asks for a child by number.
-/

set_option autoImplicit false

namespace StepScript

namespace Node

def isExpression : Node → Bool
  | use _ | operation _ | literal _ => true
  | declare _ | statement _ => false

def isClause : Node → Bool
  | declare _ => true
  | node => node.isExpression

def isInner : Node → Bool
  | statement s => s != .unit
  | _ => false

def isTitle : Node → Bool
  | literal (.string _) | literal .undefined => true
  | _ => false

def isText : Node → Bool
  | literal (.string _) => true
  | _ => false

end Node

def Statement.fits : Statement → List Node → Bool
  | .unit, parts => parts.all (·.isInner)
  | .block, parts => parts.all (·.isInner)
  | .expression, [inner] => inner.isClause
  | .ifElse, [test, branch] => test.isExpression && branch.isInner
  | .ifElse, [test, branch, other] => test.isExpression && branch.isInner && other.isInner
  | .whileLoop, [test, body] => test.isExpression && body.isInner
  | .doLoop, [body, test] => body.isInner && test.isExpression
  | .forLoop, [first, test, next, body] =>
    first.isClause && test.isExpression && next.isExpression && body.isInner
  | .ret, [] => true
  | .ret, [value] => value.isExpression
  | .throw, [value] => value.isExpression
  | .breakOut, [] => true
  | .continueOn, [] => true
  | .functionDeclaration, [literal] => literal.isOperation .functionLiteral
  | _, _ => false

namespace Operation

def arity? : Operation → Option Nat
  | objectLiteral | arrayLiteral | functionLiteral | call | construct => none
  | grouping | postIncrement | postDecrement | preIncrement | preDecrement | logicalNot | bitNot
  | plus | negate | typeof | void | delete | yield | spread => some 1
  | conditional => some 3
  | _ => some 2

def entryFits : Node → Node → Bool
  | .operation .grouping, value => value.isExpression
  | .literal (.string _), .operation .grouping => true
  | .literal (.string name), .use other => name == other
  | _, _ => false

def entriesFit : List Node → Bool
  | [] => true
  | key :: value :: rest => entryFits key value && entriesFit rest
  | [_] => false

def functionFits : List Node → Bool
  | title :: rest =>
    title.isTitle && rest.dropLast.all (·.isText) &&
      (rest.getLast?.map (·.isStatement .block)).getD false
  | [] => false

def fits (o : Operation) (parts : List Node) : Bool :=
  match o with
  | functionLiteral => functionFits parts
  | objectLiteral => entriesFit parts
  | arrayLiteral => parts.all (·.isExpression)
  | call | construct => !parts.isEmpty && parts.all (·.isExpression)
  | o =>
    o.arity? == some parts.length && parts.all (·.isExpression) &&
      (!o.isAssignment || (parts.head?.map (·.isAssignable)).getD false)

end Operation

def Node.fits : Node → List Node → Bool
  | declare _, [] => true
  | declare _, [first] => first.isExpression
  | declare _, _ => false
  | use _, parts => parts.isEmpty
  | literal _, parts => parts.isEmpty
  | statement s, parts => s.fits parts
  | operation o, parts => o.fits parts

namespace Node

theorem eq_of_isText {node : Node} (text : node.isText = true) :
    ∃ content, node = .literal (.string content) := by
  unfold isText at text
  split at text
  · exact ⟨_, rfl⟩
  · cases text

theorem eq_of_isStatement {node : Node} {s : Statement} (is : node.isStatement s = true) :
    node = .statement s := by
  unfold isStatement at is
  split at is
  · rw [eq_of_beq is]
  · cases is

theorem cases_of_isAssignable {node : Node} (assignable : node.isAssignable = true) :
    (∃ name, node = .use name) ∨ node = .operation .member := by
  unfold isAssignable at assignable
  split at assignable
  · exact .inl ⟨_, rfl⟩
  · exact .inr (by rw [eq_of_beq assignable])
  · cases assignable

end Node

namespace Operation

theorem function_parts {parts : List Node} (fits : Operation.fits .functionLiteral parts = true) :
    ∃ title params, parts = title :: (params ++ [.statement .block]) ∧ title.isTitle = true ∧
      ∀ param ∈ params, param.isText = true := by
  cases parts with
  | nil => cases fits
  | cons title rest =>
    simp only [Operation.fits, functionFits, Bool.and_eq_true] at fits
    obtain ⟨⟨named, texts⟩, last⟩ := fits
    rcases List.eq_nil_or_concat rest with rfl | ⟨params, body, rfl⟩
    · cases last
    · rw [List.concat_eq_append] at last texts ⊢
      rw [List.dropLast_concat] at texts
      rw [List.getLast?_concat] at last
      rw [Node.eq_of_isStatement last]
      exact ⟨title, params, rfl, named, List.all_eq_true.mp texts⟩

theorem length_of_fits {o : Operation} {parts : List Node} {count : Nat}
    (fits : o.fits parts = true) (arity : o.arity? = some count) : parts.length = count := by
  unfold Operation.fits at fits
  split at fits
  case h_6 =>
    simp only [Bool.and_eq_true, beq_iff_eq, arity] at fits
    exact (Option.some.inj fits.1.1).symm
  all_goals cases arity

theorem arity?_of_binary? {o : Operation} {op : BinaryOp} (binary : o.binary? = some op) :
    o.arity? = some 2 := by
  cases o <;> first | rfl | cases binary

theorem arity?_of_unary? {o : Operation} {op : UnaryOp} (unary : o.unary? = some op) :
    o.arity? = some 1 := by
  cases o <;> first | rfl | cases unary

theorem isAssignment_of_binary? {o : Operation} {op : BinaryOp} (binary : o.binary? = some op) :
    o.isAssignment = false := by
  cases o <;> first | rfl | cases binary

theorem isAssignment_of_unary? {o : Operation} {op : UnaryOp} (unary : o.unary? = some op) :
    o.isAssignment = false := by
  cases o <;> first | rfl | cases unary

theorem isAssignment_of_update? {o : Operation} {op : UpdateOp} (update : o.update? = some op) :
    o.isAssignment = true := by
  cases o <;> first | rfl | cases update

theorem assignable_of_fits {o : Operation} {parts : List Node} (fits : o.fits parts = true)
    (assigns : o.isAssignment = true) :
    ∃ first rest, parts = first :: rest ∧ first.isAssignable = true := by
  unfold Operation.fits at fits
  split at fits
  case h_6 =>
    simp only [Bool.and_eq_true, assigns, Bool.not_true, Bool.false_or] at fits
    cases parts with
    | nil => cases fits.2
    | cons first rest => exact ⟨first, rest, rfl, fits.2⟩
  all_goals cases assigns

end Operation

/-- Every node of the tree fits its children. -/
inductive Shaped : Rose Node → Prop where
  | node {value : Node} {children : List (Rose Node)}
    (fits : value.fits (children.map (·.value)) = true)
    (below : ∀ child ∈ children, Shaped child) : Shaped (.node value children)

namespace Shaped

theorem fits {tree : Rose Node} (shaped : Shaped tree) :
    tree.value.fits (tree.children.map (·.value)) = true := by
  cases shaped with
  | node fits below => exact fits

theorem child {tree sub : Rose Node} (shaped : Shaped tree) (member : sub ∈ tree.children) :
    Shaped sub := by
  cases shaped with
  | node fits below => exact below sub member

theorem leaf {value : Node} (fits : value.fits [] = true) : Shaped (.leaf value) :=
  .node fits (by simp)

theorem sub {tree sub : Rose Node} {path : List Nat} (shaped : Shaped tree)
    (found : tree.at? path = some sub) : Shaped sub := by
  induction path generalizing tree with
  | nil =>
    cases found
    exact shaped
  | cons i path ih =>
    rw [Rose.at?_cons] at found
    obtain ⟨child, selected, below⟩ := Option.bind_eq_some_iff.mp found
    exact ih (shaped.child (List.mem_of_getElem? selected)) below

end Shaped

/-- The code is that of a shaped tree whose root is the statement `s`. -/
def Code.Rooted (s : Statement) (code : Code) : Prop :=
  ∃ tree : Rose Node, code = .ofRose tree ∧ Shaped tree ∧ tree.value = .statement s

end StepScript
