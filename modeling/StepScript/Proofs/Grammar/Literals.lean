import StepScript.Proofs.Grammar.Shape
import StepScript.Proofs.Value.References

/-! Literals of parsed programs are no objects.

What has been read and all that is built from it is plain: each literal comes from
a token, a name or a gap. One lemma for each rule keeps this up if the goals that it
sends for do.
-/

set_option autoImplicit false

namespace StepScript

inductive Branch.Plain : Branch → Prop where
  | node {value : Node} {children : List Branch} (here : value.Plain)
    (below : ∀ child ∈ children, Plain child) : Branch.Plain (.node value children)

def Goal.done : Goal → List Branch
  | unit done | blockRest done | arguments _ done | entries done | elements done => done
  | operators _ left => [left]
  | suffixes base | callee base => [base]
  | statement | block | expression _ | operand | primary => []

def Reach.Plain (reach : Reach) : Prop :=
  ∀ goal : Goal, (∀ tree ∈ goal.done, tree.Plain) → Parse.Ensures (reach goal) Branch.Plain

open Branch Parse

/-! ## Trees that rules build -/

theorem plain_lit {value : Value} (primitive : value.Within 0) : (lit value).Plain :=
  .node primitive (List.forall_mem_nil _)

theorem plain_use (name : String) : Branch.Plain (.leaf (.use name)) :=
  .node trivial (List.forall_mem_nil _)

theorem plain_op {o : Operation} {operands : List Branch}
    (plain : ∀ tree ∈ operands, tree.Plain) : (op o operands).Plain :=
  .node trivial plain

theorem plain_stmt {s : Statement} {parts : List Branch}
    (plain : ∀ tree ∈ parts, tree.Plain) : (stmt s parts).Plain :=
  .node trivial plain

theorem plain_reverse {done : List Branch} (plain : ∀ tree ∈ done, tree.Plain) :
    ∀ tree ∈ done.reverse, tree.Plain :=
  fun tree member => plain tree (List.mem_reverse.mp member)

/-! ## Rules of expressions -/

theorem plain_parameters (limit : Nat) {done : List Branch} (plain : ∀ tree ∈ done, tree.Plain) :
    Ensures (parameters limit done) fun params => ∀ tree ∈ params, tree.Plain := by
  induction limit generalizing done with
  | zero => exact .throw _
  | succ limit ih =>
    refine .andThen fun name => .andThen fun _ => ?_
    have all : ∀ tree ∈ lit (.string name) :: done, tree.Plain :=
      List.forall_mem_cons.mpr ⟨plain_lit trivial, plain⟩
    exact .ite (fun _ => ih all) fun _ => .andThen fun _ => .pure (plain_reverse all)

theorem plain_parameterList : Ensures parameterList fun params => ∀ tree ∈ params, tree.Plain := by
  refine .andThen fun _ => .andThen fun _ => ?_
  exact .ite (fun _ => .pure (List.forall_mem_nil _)) fun _ =>
    .andThen fun _ => plain_parameters _ (List.forall_mem_nil _)

theorem plain_functionName : Ensures functionName (Value.Within 0) := by
  refine .andThen fun lexeme => ?_
  split
  case h_1 => exact .andThen fun name => .pure trivial
  case h_2 => exact .pure trivial

section Expressions

variable {reach : Reach} (plain : reach.Plain)
include plain

theorem plain_goal (goal : Goal) (new : goal.done = []) : Ensures (reach goal) Branch.Plain :=
  plain goal (new ▸ List.forall_mem_nil _)

theorem plain_anyExpression : Ensures (anyExpression reach) Branch.Plain :=
  plain_goal plain (.expression 0) rfl

theorem plain_expressionRule (least : Nat) : Ensures (expressionRule reach least) Branch.Plain :=
  .bind (plain_goal plain .operand rfl) fun left first =>
    plain (.operators least left) (List.forall_mem_singleton.mpr first)

theorem plain_middleOperands (o : Operation) :
    Ensures (middleOperands reach o) fun middle => ∀ tree ∈ middle, tree.Plain := by
  refine .ite (fun _ => ?_) fun _ => .pure (List.forall_mem_nil _)
  exact .bind (plain_anyExpression plain) fun middle inside =>
    .andThen fun _ => .pure (List.forall_mem_singleton.mpr inside)

theorem plain_operatorsRule (least : Nat) {left : Branch} (first : left.Plain) :
    Ensures (operatorsRule reach least left) Branch.Plain := by
  refine .andThen fun lexeme => ?_
  split
  case h_1 => exact .pure first
  case h_2 o between =>
    refine .ite (fun _ => .pure first) fun _ => .andThen fun _ => .andThen fun _ => ?_
    refine .bind (plain_middleOperands plain o) fun middle inside => ?_
    refine .bind (plain_goal plain (.expression _) rfl) fun right last => ?_
    refine plain (.operators least _) (List.forall_mem_singleton.mpr (plain_op ?_))
    exact List.forall_mem_cons.mpr
      ⟨first, List.forall_mem_append.mpr ⟨inside, List.forall_mem_singleton.mpr last⟩⟩

theorem plain_operandRule : Ensures (operandRule reach) Branch.Plain := by
  refine .andThen fun lexeme => ?_
  split
  case h_1 =>
    refine .andThen fun _ => .bind (plain_goal plain .operand rfl) fun inner operand => ?_
    exact .andThen fun _ => .pure (plain_op (List.forall_mem_singleton.mpr operand))
  case h_2 =>
    exact .bind (plain_goal plain .primary rfl) fun base first =>
      plain (.suffixes base) (List.forall_mem_singleton.mpr first)

theorem plain_memberAccess {base : Branch} (first : base.Plain) :
    Ensures (memberAccess reach base) Branch.Plain := by
  have access {key : Branch} (second : key.Plain) : (op .member [base, key]).Plain :=
    plain_op (List.forall_mem_cons.mpr ⟨first, List.forall_mem_singleton.mpr second⟩)
  refine .andThen fun _ => .ite (fun _ => ?_) fun _ => .andThen fun _ => ?_
  · exact .andThen fun name => .pure (access (plain_lit trivial))
  · exact .bind (plain_anyExpression plain) fun key second =>
      .andThen fun _ => .pure (access second)

theorem plain_argumentList {o : Operation} {done : List Branch}
    (all : ∀ tree ∈ done, tree.Plain) : Ensures (argumentList reach o done) Branch.Plain :=
  .andThen fun _ => .ite (fun _ => .pure (plain_op (plain_reverse all))) fun _ =>
    plain (.arguments o done) all

theorem plain_suffixesRule {base : Branch} (first : base.Plain) :
    Ensures (suffixesRule reach base) Branch.Plain := by
  have single : ∀ tree ∈ [base], tree.Plain := List.forall_mem_singleton.mpr first
  have further {p : Parse Branch} (ensures : Ensures p Branch.Plain) :
      Ensures (p >>= fun tree => reach (.suffixes tree)) Branch.Plain :=
    .bind ensures fun tree next => plain (.suffixes tree) (List.forall_mem_singleton.mpr next)
  refine .andThen fun lexeme => ?_
  split
  case h_1 | h_2 => exact further (plain_memberAccess plain first)
  case h_3 => exact .andThen fun _ => further (plain_argumentList plain single)
  case h_4 | h_5 => exact .andThen fun _ => .andThen fun _ => .pure (plain_op single)
  case h_6 => exact .pure first

theorem plain_argumentsRule {o : Operation} {done : List Branch}
    (all : ∀ tree ∈ done, tree.Plain) : Ensures (argumentsRule reach o done) Branch.Plain := by
  refine .bind (plain_anyExpression plain) fun argument last => .andThen fun _ => ?_
  have more : ∀ tree ∈ argument :: done, tree.Plain := List.forall_mem_cons.mpr ⟨last, all⟩
  exact .ite (fun _ => plain (.arguments o _) more) fun _ =>
    .andThen fun _ => .pure (plain_op (plain_reverse more))

theorem plain_groupingRule : Ensures (groupingRule reach) Branch.Plain :=
  .andThen fun _ => .bind (plain_anyExpression plain) fun _ inner =>
    .andThen fun _ => .pure (plain_op (List.forall_mem_singleton.mpr inner))

theorem plain_objectEntry :
    Ensures (objectEntry reach) fun entry => entry.1.Plain ∧ entry.2.Plain := by
  have grouped {tree : Branch} (inner : tree.Plain) : (op .grouping [tree]).Plain :=
    plain_op (List.forall_mem_singleton.mpr inner)
  refine .andThen fun _ => .ite (fun _ => ?_) fun _ => ?_
  · refine .bind (plain_anyExpression plain) fun key first => .andThen fun _ => .andThen fun _ => ?_
    exact .bind (plain_anyExpression plain) fun value second => .pure ⟨grouped first, second⟩
  · refine .andThen fun _ => .andThen fun name => .andThen fun _ => .ite (fun _ => ?_) fun _ => ?_
    · exact .bind (plain_anyExpression plain) fun value second =>
        .pure ⟨plain_lit trivial, grouped second⟩
    · exact .ite (fun _ => .pure ⟨plain_lit trivial, plain_use name⟩) fun _ => .fail _

theorem plain_entriesRule {done : List Branch} (all : ∀ tree ∈ done, tree.Plain) :
    Ensures (entriesRule reach done) Branch.Plain := by
  refine .bind (plain_objectEntry plain) fun ⟨key, value⟩ ⟨first, second⟩ => .andThen fun _ => ?_
  have more : ∀ tree ∈ value :: key :: done, tree.Plain :=
    List.forall_mem_cons.mpr ⟨second, List.forall_mem_cons.mpr ⟨first, all⟩⟩
  exact .ite (fun _ => plain (.entries _) more) fun _ =>
    .andThen fun _ => .pure (plain_op (plain_reverse more))

theorem plain_objectRule : Ensures (objectRule reach) Branch.Plain :=
  .andThen fun _ => .andThen fun _ =>
    .ite (fun _ => .pure (plain_op (List.forall_mem_nil _))) fun _ =>
      plain_goal plain (.entries []) rfl

theorem plain_arrayElement : Ensures (arrayElement reach) Branch.Plain :=
  .andThen fun _ => .andThen fun _ =>
    .ite (fun _ => .pure (plain_lit trivial)) fun _ => plain_anyExpression plain

theorem plain_elementsRule {done : List Branch} (all : ∀ tree ∈ done, tree.Plain) :
    Ensures (elementsRule reach done) Branch.Plain := by
  refine .bind (plain_arrayElement plain) fun element last => .andThen fun _ => ?_
  have more : ∀ tree ∈ element :: done, tree.Plain := List.forall_mem_cons.mpr ⟨last, all⟩
  exact .ite (fun _ => plain (.elements _) more) fun _ =>
    .andThen fun _ => .pure (plain_op (plain_reverse more))

theorem plain_arrayRule : Ensures (arrayRule reach) Branch.Plain :=
  .andThen fun _ => .andThen fun _ =>
    .ite (fun _ => .pure (plain_op (List.forall_mem_nil _))) fun _ =>
      plain_goal plain (.elements []) rfl

theorem plain_functionRule : Ensures (functionRule reach) Branch.Plain := by
  refine .andThen fun _ => .bind plain_functionName fun name primitive => ?_
  refine .bind plain_parameterList fun params texts => ?_
  refine .bind (plain_goal plain .block rfl) fun body block => .pure (plain_op ?_)
  exact List.forall_mem_cons.mpr ⟨plain_lit primitive,
    List.forall_mem_append.mpr ⟨texts, List.forall_mem_singleton.mpr block⟩⟩

theorem plain_constructRule : Ensures (constructRule reach) Branch.Plain := by
  refine .andThen fun _ => .bind (plain_goal plain .primary rfl) fun base first => ?_
  refine .bind (plain (.callee base) (List.forall_mem_singleton.mpr first)) fun callee last => ?_
  have single : ∀ tree ∈ [callee], tree.Plain := List.forall_mem_singleton.mpr last
  exact .andThen fun _ => .ite (fun _ => plain_argumentList plain single) fun _ =>
    .pure (plain_op single)

theorem plain_calleeRule {base : Branch} (first : base.Plain) :
    Ensures (calleeRule reach base) Branch.Plain := by
  refine .andThen fun _ => .andThen fun _ => .ite (fun _ => ?_) fun _ => .pure first
  exact .bind (plain_memberAccess plain first) fun access next =>
    plain (.callee access) (List.forall_mem_singleton.mpr next)

theorem plain_primaryRule : Ensures (primaryRule reach) Branch.Plain := by
  have literal {value : Value} (primitive : value.Within 0) :
      Ensures (literalRule value) Branch.Plain :=
    .andThen fun _ => .pure (plain_lit primitive)
  refine .andThen fun lexeme => ?_
  split
  case h_7 => exact .andThen fun name => .pure (plain_use name)
  case h_8 => exact plain_groupingRule plain
  case h_9 => exact plain_objectRule plain
  case h_10 => exact plain_arrayRule plain
  case h_11 => exact plain_functionRule plain
  case h_12 => exact plain_constructRule plain
  case h_13 => exact .fail _
  -- The first six cases are the literals.
  all_goals exact literal trivial

end Expressions

/-! ## Rules of statements -/

theorem plain_jumpRule (s : Statement) : Ensures (jumpRule s) Branch.Plain :=
  .andThen fun _ => .andThen fun _ => .pure (plain_stmt (List.forall_mem_nil _))

section Statements

variable {reach : Reach} (plain : reach.Plain)
include plain

theorem plain_blockRule : Ensures (blockRule reach) Branch.Plain :=
  .andThen fun _ => plain_goal plain (.blockRest []) rfl

theorem plain_blockRestRule {done : List Branch} (all : ∀ tree ∈ done, tree.Plain) :
    Ensures (blockRestRule reach done) Branch.Plain := by
  refine .andThen fun _ => .ite (fun _ => ?_) fun _ => .andThen fun lexeme => ?_
  · exact .andThen fun _ => .pure (plain_stmt (plain_reverse all))
  · split
    case h_1 => exact .fail _
    case h_2 =>
      exact .bind (plain_goal plain .statement rfl) fun statement last =>
        plain (.blockRest _) (List.forall_mem_cons.mpr ⟨last, all⟩)

theorem plain_unitRule {done : List Branch} (all : ∀ tree ∈ done, tree.Plain) :
    Ensures (unitRule reach done) Branch.Plain := by
  refine .andThen fun lexeme => ?_
  split
  case h_1 => exact .pure (plain_stmt (plain_reverse all))
  case h_2 =>
    exact .bind (plain_goal plain .statement rfl) fun statement last =>
      plain (.unit _) (List.forall_mem_cons.mpr ⟨last, all⟩)

theorem plain_condition : Ensures (condition reach) Branch.Plain :=
  .andThen fun _ => .bind (plain_anyExpression plain) fun _ test => .andThen fun _ => .pure test

theorem plain_ifRule : Ensures (ifRule reach) Branch.Plain := by
  refine .andThen fun _ => .bind (plain_condition plain) fun test first => ?_
  refine .bind (plain_goal plain .statement rfl) fun consequent second => .andThen fun _ => ?_
  refine .ite (fun _ => ?_) fun _ => .pure (plain_stmt (by simp [first, second]))
  exact .bind (plain_goal plain .statement rfl) fun alternative third =>
    .pure (plain_stmt (by simp [first, second, third]))

theorem plain_whileRule : Ensures (whileRule reach) Branch.Plain := by
  refine .andThen fun _ => .bind (plain_condition plain) fun test first => ?_
  exact .bind (plain_goal plain .statement rfl) fun body second =>
    .pure (plain_stmt (by simp [first, second]))

theorem plain_doRule : Ensures (doRule reach) Branch.Plain := by
  refine .andThen fun _ => .bind (plain_goal plain .statement rfl) fun body first => ?_
  refine .andThen fun _ => .bind (plain_condition plain) fun test second => .andThen fun _ => ?_
  exact .pure (plain_stmt (by simp [first, second]))

theorem plain_declarationRule : Ensures (declarationRule reach) Branch.Plain := by
  refine .andThen fun _ => .andThen fun name => .andThen fun _ => .ite (fun _ => ?_) fun _ => ?_
  · exact .bind (plain_anyExpression plain) fun first inner =>
      .pure (.node trivial (List.forall_mem_singleton.mpr inner))
  · exact .pure (.node trivial (List.forall_mem_nil _))

theorem plain_clause : Ensures (clause reach) Branch.Plain :=
  .andThen fun _ => .ite (fun _ => plain_declarationRule plain) fun _ => plain_anyExpression plain

theorem plain_firstClause : Ensures (firstClause reach) Branch.Plain :=
  .andThen fun _ => .ite (fun _ => .pure (plain_lit trivial)) fun _ => plain_clause plain

theorem plain_optionalClause (stop : Punctuator) :
    Ensures (optionalClause reach stop) Branch.Plain :=
  .andThen fun _ => .ite (fun _ => .pure (plain_lit trivial)) fun _ => plain_anyExpression plain

theorem plain_forRule : Ensures (forRule reach) Branch.Plain := by
  refine .andThen fun _ => .andThen fun _ => .bind (plain_firstClause plain) fun start first => ?_
  refine .andThen fun _ => .bind (plain_optionalClause plain _) fun test second => ?_
  refine .andThen fun _ => .bind (plain_optionalClause plain _) fun step third => ?_
  refine .andThen fun _ => .bind (plain_goal plain .statement rfl) fun body fourth => ?_
  exact .pure (plain_stmt (by simp [first, second, third, fourth]))

theorem plain_returnRule : Ensures (returnRule reach) Branch.Plain := by
  refine .andThen fun _ => .andThen fun _ => .ite (fun _ => .andThen fun _ => ?_) fun _ => ?_
  · exact .pure (plain_stmt (List.forall_mem_nil _))
  · exact .bind (plain_anyExpression plain) fun value inner =>
      .andThen fun _ => .pure (plain_stmt (List.forall_mem_singleton.mpr inner))

theorem plain_throwRule : Ensures (throwRule reach) Branch.Plain :=
  .andThen fun _ => .bind (plain_anyExpression plain) fun _ inner =>
    .andThen fun _ => .pure (plain_stmt (List.forall_mem_singleton.mpr inner))

theorem plain_expressionStatementRule :
    Ensures (expressionStatementRule reach) Branch.Plain := by
  refine .bind (plain_clause plain) fun inner clause => .andThen fun _ => ?_
  have single : ∀ tree ∈ [inner], tree.Plain := List.forall_mem_singleton.mpr clause
  exact .ite (fun _ => .pure (plain_stmt single)) fun _ =>
    .andThen fun _ => .pure (plain_stmt single)

theorem plain_statementRule : Ensures (statementRule reach) Branch.Plain := by
  refine .andThen fun lexeme => ?_
  split
  case h_1 => exact plain_blockRule plain
  case h_2 => exact plain_ifRule plain
  case h_3 => exact plain_whileRule plain
  case h_4 => exact plain_doRule plain
  case h_5 => exact plain_forRule plain
  case h_6 => exact plain_returnRule plain
  case h_7 => exact plain_throwRule plain
  case h_8 | h_9 => exact plain_jumpRule _
  case h_10 => exact plain_expressionStatementRule plain

end Statements

/-! ## Whole programs -/

theorem plain_rule {reach : Reach} (plain : reach.Plain) (goal : Goal)
    (all : ∀ tree ∈ goal.done, tree.Plain) : Ensures (goal.rule reach) Branch.Plain := by
  cases goal with
  | unit done => exact plain_unitRule plain all
  | statement => exact plain_statementRule plain
  | block => exact plain_blockRule plain
  | blockRest done => exact plain_blockRestRule plain all
  | expression least => exact plain_expressionRule plain least
  | operators least left =>
    exact plain_operatorsRule plain least (List.forall_mem_singleton.mp all)
  | operand => exact plain_operandRule plain
  | suffixes base => exact plain_suffixesRule plain (List.forall_mem_singleton.mp all)
  | primary => exact plain_primaryRule plain
  | callee base => exact plain_calleeRule plain (List.forall_mem_singleton.mp all)
  | arguments o done => exact plain_argumentsRule plain all
  | entries done => exact plain_entriesRule plain all
  | elements done => exact plain_elementsRule plain all

theorem reach_parse_plain (fuel : Nat) : Reach.Plain (Goal.parse fuel) := by
  induction fuel with
  | zero => exact fun goal _ => .throw _
  | succ fuel ih => exact fun goal all => plain_rule ih goal all

mutual

theorem plain_entriesBefore : ∀ (tree : Branch) (after : Int), tree.Plain →
    ∀ entry ∈ tree.entriesBefore after, entry.value.Plain
  | .node _ children, after, .node here below =>
    List.forall_mem_cons.mpr ⟨here, plain_forestBefore children (after - 1) below⟩

theorem plain_forestBefore : ∀ (trees : List Branch) (after : Int), (∀ tree ∈ trees, tree.Plain) →
    ∀ entry ∈ Rose.forestBefore after trees, entry.value.Plain
  | [], _, _ => List.forall_mem_nil _
  | tree :: rest, after, plain =>
    have ⟨here, later⟩ := List.forall_mem_cons.mp plain
    List.forall_mem_append.mpr
      ⟨plain_entriesBefore tree _ here, plain_forestBefore rest after later⟩

end

/-- No literal of parsed code is an object. -/
theorem plain_parse {source : String} {code : Code} (parsed : parse source = .ok code) :
    code.Plain := by
  obtain ⟨tree, read, rfl⟩ := tree_of_parse parsed
  obtain ⟨first, last, fuel, -, run⟩ := run_of_parseTree read
  have plain := reach_parse_plain fuel (.unit []) (List.forall_mem_nil _) first tree last run
  exact plain_entriesBefore tree (-1) plain

end StepScript
