import StepScript.Proofs.Evaluator.Assignments
import StepScript.Proofs.Evaluator.Expressions

/-! The machine and the evaluator agree on every node.

Each node does what the evaluator does with it, if its children do with less
fuel. So by induction on the fuel all do.
-/

set_option autoImplicit false

namespace StepScript

theorem Statement.length_of_fits {statement : Statement} {parts : List Node}
    (fits : statement.fits parts = true) :
    match statement with
    | .unit | .block => True
    | .expression | .functionDeclaration | .throw => parts.length = 1
    | .ifElse => parts.length = 2 ∨ parts.length = 3
    | .whileLoop | .doLoop => parts.length = 2
    | .ret => parts.length = 0 ∨ parts.length = 1
    | .breakOut | .continueOn => parts.length = 0
    | .forLoop => parts.length = 4 := by
  unfold Statement.fits at fits
  split at fits <;> first | trivial | exact .inl rfl | exact .inr rfl

namespace Operation

theorem length_of_update? {o : Operation} {op : UpdateOp} (update : o.update? = some op)
    {parts : List Node} (fits : o.fits parts = true) : parts.length ≤ 2 := by
  have arity : o.arity? = some 1 ∨ o.arity? = some 2 := by
    cases o <;> first | exact .inl rfl | exact .inr rfl | cases update
  rcases arity with one | two
  · rw [length_of_fits fits one]
    omega
  · exact Nat.le_of_eq (length_of_fits fits two)

end Operation

variable {σ : Type} {host : Host σ} {k : Nat} {c : Setting} {path : List Nat}
  {memo converted : NodeMap Value} {s : Store σ} {sub : Rose Node} {up : Nat}
  (clear : Clear c path sub memo converted)
  (above : (Outline.ofRose c.tree).parent (c.tree.place path) = some up)
  (agree : ∀ j ≤ k, Agrees host j) (bodies : s.Bodies) (keeps : host.Keeps)
  (aside : Handler.isTarget (.ofRose c.tree) (c.tree.place path) = false)
include clear above agree bodies keeps aside

theorem performs_statement {statement : Statement} (content : sub.value = .statement statement) :
    Performs host c (c.tree.place path) up memo converted s (k + 1)
      (Evaluator.statement host c.depthLimit k (Evaluator.eval host c.depthLimit k) c.here
        (Evaluator.eval host c.depthLimit k c.here sub) statement sub.children) := by
  have agrees := agree k (Nat.le_refl k)
  have plain : sub.value.isAssignment = false := by rw [content]; rfl
  have fits := clear.shaped.fits
  rw [content] at fits
  have count := Statement.length_of_fits fits
  rw [List.length_map] at count
  -- The shape tells how many parts each kind of statement has.
  cases statement with
  | unit => exact performs_sequence clear above agrees bodies (.inl content)
  | block => exact performs_sequence clear above agrees bodies (.inr content)
  | expression =>
    obtain ⟨inner, parts⟩ := List.length_eq_one_iff.mp count
    rw [parts]
    exact performs_passThrough clear above agrees bodies parts (by rw [content]; rfl) plain
  | ifElse =>
    rcases count with two | three
    · obtain ⟨test, branch, parts⟩ := List.length_eq_two.mp two
      rw [parts]
      exact performs_ifElse clear above agrees bodies keeps content parts
    · obtain ⟨test, branch, other, parts⟩ := List.length_eq_three.mp three
      rw [parts]
      exact performs_ifElse clear above agrees bodies keeps content parts
  | whileLoop =>
    obtain ⟨test, body, parts⟩ := List.length_eq_two.mp count
    rw [parts]
    exact performs_while clear above agrees bodies keeps aside content parts
  | doLoop =>
    obtain ⟨body, test, parts⟩ := List.length_eq_two.mp count
    have performs := performs_do clear above content parts keeps agree bodies
    rw [Evaluator.eval, Evaluator.rule, content] at performs
    exact performs
  | ret =>
    rcases count with zero | one
    · have parts := List.length_eq_zero_iff.mp zero
      rw [parts]
      exact performs_return clear above bodies content parts
    · obtain ⟨operand, parts⟩ := List.length_eq_one_iff.mp one
      rw [parts]
      exact performs_returnWith clear above agrees bodies parts content
  | functionDeclaration =>
    obtain ⟨literal, parts⟩ := List.length_eq_one_iff.mp count
    rw [parts]
    exact performs_functionDeclaration clear above agrees bodies parts content
  | forLoop => exact performs_fail clear (by rw [content]; rfl)
  | throw => exact performs_fail clear (by rw [content]; rfl)
  | breakOut => exact performs_fail clear (by rw [content]; rfl)
  | continueOn => exact performs_fail clear (by rw [content]; rfl)

theorem performs_construct {o : Operation} (content : sub.value = .operation o)
    (binary : o.binary? = none) (unary : o.unary? = none) (update : o.update? = none) :
    Performs host c (c.tree.place path) up memo converted s (k + 1)
      (Evaluator.construct host c.depthLimit k (Evaluator.eval host c.depthLimit k) c.here o
        sub.children) := by
  have agrees := agree k (Nat.le_refl k)
  have handles : Setting.handle host (c.tree.place path) sub.value =
      Handler.construct host (c.tree.place path) o := by
    rw [content]
    exact Handler.operation_of_none host binary unary update _
  have fits := clear.shaped.fits
  rw [content] at fits
  have plain (isPlain : o.isAssignment = false) : sub.value.isAssignment = false := by
    rw [content]
    exact isPlain
  have count {number : Nat} (arity : o.arity? = some number) : sub.children.length = number := by
    have length := Operation.length_of_fits fits arity
    rwa [List.length_map] at length
  cases o
  case grouping =>
    obtain ⟨inner, parts⟩ := List.length_eq_one_iff.mp (count rfl)
    rw [parts]
    exact performs_passThrough clear above agrees bodies parts handles (plain rfl)
  case objectLiteral => exact performs_objectLiteral clear above agrees bodies content
  case functionLiteral =>
    obtain ⟨title, params, body, parts, -, -⟩ := clear.function_parts content
    rw [parts]
    exact performs_functionLiteral clear above bodies content parts
  case member =>
    obtain ⟨base, key, parts⟩ := List.length_eq_two.mp (count rfl)
    rw [parts]
    exact performs_member clear above agrees bodies content parts aside
  case call =>
    cases parts : sub.children with
    | nil =>
      rw [parts] at fits
      cases fits
    | cons callee arguments =>
      exact performs_call clear above agrees bodies keeps content parts
  case logicalAnd =>
    obtain ⟨left, right, parts⟩ := List.length_eq_two.mp (count rfl)
    rw [parts]
    exact performs_logical clear above agrees bodies keeps parts (plain rfl) handles
  case logicalOr =>
    obtain ⟨left, right, parts⟩ := List.length_eq_two.mp (count rfl)
    rw [parts]
    exact performs_logical clear above agrees bodies keeps parts (plain rfl) handles
  case conditional =>
    obtain ⟨test, left, right, parts⟩ := List.length_eq_three.mp (count rfl)
    rw [parts]
    exact performs_conditional clear above agrees bodies keeps content parts
  -- The other operations are refused by both, before any of their parts is evaluated.
  all_goals exact performs_fail clear handles

theorem performs_operation {o : Operation} (content : sub.value = .operation o) :
    Performs host c (c.tree.place path) up memo converted s (k + 1)
      (Evaluator.operation host c.depthLimit k (Evaluator.eval host c.depthLimit k) c.here o
        sub.children) := by
  have agrees := agree k (Nat.le_refl k)
  have fits := clear.shaped.fits
  rw [content] at fits
  -- Parsed trees have as many parts as the operation wants, so no fallback case is met.
  have count {number : Nat} (arity : o.arity? = some number) : sub.children.length = number := by
    have length := Operation.length_of_fits fits arity
    rwa [List.length_map] at length
  unfold Evaluator.operation
  cases binary : o.binary? with
  | some op =>
    obtain ⟨left, right, parts⟩ :=
      List.length_eq_two.mp (count (Operation.arity?_of_binary? binary))
    rw [parts]
    apply performs_binary clear above agrees bodies keeps parts
    · rw [content]
      exact Handler.operation_of_binary? host binary _
    · rw [content]
      exact Operation.isAssignment_of_binary? binary
  | none =>
    cases unary : o.unary? with
    | some op =>
      obtain ⟨operand, parts⟩ :=
        List.length_eq_one_iff.mp (count (Operation.arity?_of_unary? unary))
      rw [parts]
      apply performs_unary clear above agrees bodies keeps parts
      · rw [content]
        exact Operation.isAssignment_of_unary? unary
      · rw [content]
        exact Handler.operation_of_unary? host unary _
    | none =>
      cases update : o.update? with
      | some op =>
        have assigns := Operation.isAssignment_of_update? update
        have few := Operation.length_of_update? update fits
        obtain ⟨first, others, whole, assignable⟩ := Operation.assignable_of_fits fits assigns
        obtain ⟨target, rest, parts, rfl, -⟩ := List.map_eq_cons_iff.mp whole
        rw [List.length_map] at few
        rw [parts] at few ⊢
        exact performs_assignment clear above agrees bodies keeps parts (by simpa using few)
          (by rw [content]; exact Handler.operation_of_update? host update _) content assigns
          assignable
      | none =>
        exact performs_construct clear above agree bodies keeps aside content binary unary update

/-- A node does what the evaluator does with it, if its children do. -/
theorem performs_rule :
    Performs host c (c.tree.place path) up memo converted s (k + 1)
      (Evaluator.eval host c.depthLimit (k + 1) c.here sub) := by
  have agrees := agree k (Nat.le_refl k)
  have fits := clear.shaped.fits
  rw [Evaluator.eval, Evaluator.rule]
  cases content : sub.value with
  | statement statement =>
    exact performs_statement clear above agree bodies keeps aside content
  | operation o => exact performs_operation clear above agree bodies keeps aside content
  | declare name =>
    rw [content] at fits
    cases parts : sub.children with
    | nil => exact performs_declare clear above bodies content parts
    | cons first rest =>
      rw [parts] at fits
      cases rest with
      | nil => exact performs_declareWith clear above agrees bodies parts content
      | cons second rest => cases fits
  | use name => exact performs_use clear above bodies content
  | literal value => exact performs_literal clear above bodies content

omit clear above agree bodies aside

/-- Whatever the fuel, the machine and the evaluator agree on every node. -/
theorem agrees_all (k : Nat) : Agrees host k := by
  induction k using Nat.strongRecOn with
  | ind k ih =>
    intro c path up sub s memo converted clear above aside bodies
    cases k with
    -- No fuel on the one side, no steps on the other.
    | zero =>
      unfold Performs
      rw [c.behaviour_state]
      rfl
    | succ k =>
      exact performs_rule clear above (fun j fewer => ih j (by omega)) bodies keeps aside

end StepScript
