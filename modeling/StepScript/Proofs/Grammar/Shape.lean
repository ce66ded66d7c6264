import StepScript.Grammar.Rules
import StepScript.Proofs.Program.Shape

/-! Parsed programs are shaped.

`Ensures p Q` says that whatever `p` reads, its result satisfies `Q`. Each goal of
the parser has a condition on what it continues, `Goal.Ready`, and one on what it
gives, `Goal.Reached`. One lemma for each rule shows that the rule keeps to them
if the goals it sends for do; the induction over nested goals is then short.
-/

set_option autoImplicit false

namespace StepScript

namespace Parse

variable {α β : Type}

/-- Whatever `p` reads, its result satisfies `Q`. -/
def Ensures (p : Parse α) (Q : α → Prop) : Prop :=
  ∀ cursor result rest, p.run cursor = .ok (result, rest) → Q result

namespace Ensures

theorem pure {Q : α → Prop} {a : α} (holds : Q a) : Ensures (Pure.pure a) Q := by
  intro cursor result rest run
  cases run
  exact holds

theorem any (p : Parse α) : Ensures p fun _ => True := fun _ _ _ _ => trivial

theorem mono {p : Parse α} {Q R : α → Prop} (ensures : Ensures p Q) (weaker : ∀ a, Q a → R a) :
    Ensures p R :=
  fun cursor result rest run => weaker result (ensures cursor result rest run)

theorem bind {p : Parse α} {f : α → Parse β} {Q : α → Prop} {R : β → Prop} (first : Ensures p Q)
    (next : ∀ a, Q a → Ensures (f a) R) : Ensures (p >>= f) R := by
  intro cursor result rest run
  rw [StateT.run_bind] at run
  cases middle : p.run cursor with
  | error e =>
    rw [middle] at run
    cases run
  | ok answer =>
    obtain ⟨a, after⟩ := answer
    rw [middle] at run
    exact next a (first cursor a after middle) after result rest run

theorem andThen {p : Parse α} {f : α → Parse β} {R : β → Prop} (next : ∀ a, Ensures (f a) R) :
    Ensures (p >>= f) R :=
  bind (any p) fun a _ => next a

theorem fail {Q : α → Prop} (wanted : Wanted) : Ensures (Parse.fail wanted) Q := by
  intro cursor result rest run
  cases run

theorem throw {Q : α → Prop} (e : ParseError) : Ensures (MonadExcept.throw e) Q := by
  intro cursor result rest run
  cases run

theorem ite {c : Prop} [Decidable c] {p q : Parse α} {Q : α → Prop} (yes : c → Ensures p Q)
    (no : ¬ c → Ensures q Q) : Ensures (if c then p else q) Q := by
  split
  · exact yes ‹c›
  · exact no ‹¬ c›

end Ensures

end Parse

def Operand (tree : Branch) : Prop :=
  Shaped tree ∧ tree.value.isExpression = true

def Inner (tree : Branch) : Prop :=
  Shaped tree ∧ tree.value.isInner = true

namespace Goal

/-- What has been read in part is fit to be continued. -/
def Ready : Goal → Prop
  | unit done | blockRest done => ∀ tree ∈ done, Inner tree
  | operators _ left => Operand left
  | suffixes base | callee base => Operand base
  | arguments o done =>
    (o = .call ∨ o = .construct) ∧ done ≠ [] ∧ ∀ tree ∈ done, Operand tree
  | entries done =>
    (∀ tree ∈ done, Shaped tree) ∧ Operation.entriesFit (done.reverse.map (·.value)) = true
  | elements done => ∀ tree ∈ done, Operand tree
  | statement | block | expression _ | operand | primary => True

def Reached : Goal → Branch → Prop
  | unit _, tree => Shaped tree ∧ tree.value = .statement .unit
  | statement, tree => Inner tree
  | block, tree | blockRest _, tree => Shaped tree ∧ tree.value = .statement .block
  | _, tree => Operand tree

end Goal

/-- All goals within reach give what they should. -/
def Reach.Sound (reach : Reach) : Prop :=
  ∀ goal : Goal, goal.Ready → Parse.Ensures (reach goal) goal.Reached

open Branch Parse

/-! ## Trees that rules build -/

theorem operand_lit (value : Value) : Operand (lit value) :=
  ⟨.leaf rfl, rfl⟩

theorem operand_use (name : String) : Operand (.leaf (.use name)) :=
  ⟨.leaf rfl, rfl⟩

theorem operand_op {o : Operation} {operands : List Branch}
    (fits : o.fits (operands.map (·.value)) = true) (below : ∀ tree ∈ operands, Shaped tree) :
    Operand (op o operands) :=
  ⟨.node fits below, rfl⟩

theorem all_isExpression {operands : List Branch} (operand : ∀ tree ∈ operands, Operand tree) :
    (operands.map (·.value)).all (·.isExpression) = true := by
  simpa using fun tree member => (operand tree member).2

theorem operand_fixed {o : Operation} {operands : List Branch}
    (arity : o.arity? = some operands.length) (operand : ∀ tree ∈ operands, Operand tree)
    (assignable : o.isAssignment = true →
      (operands.head?.map (·.value.isAssignable)).getD false = true) :
    Operand (op o operands) := by
  refine operand_op ?_ fun tree member => (operand tree member).1
  have target : (!o.isAssignment ||
      ((operands.map (·.value)).head?.map (·.isAssignable)).getD false) = true := by
    cases assigns : o.isAssignment with
    | false => rfl
    | true => simpa [Function.comp_def] using assignable assigns
  unfold Operation.fits
  split
  case h_6 =>
    simp only [arity, List.length_map, beq_self_eq_true, all_isExpression operand, target,
      Bool.and_self]
  all_goals cases arity

theorem operand_call {o : Operation} {operands : List Branch} (calls : o = .call ∨ o = .construct)
    (nonempty : operands ≠ []) (operand : ∀ tree ∈ operands, Operand tree) :
    Operand (op o operands.reverse) := by
  have all : (operands.reverse.map (·.value)).all (·.isExpression) = true :=
    all_isExpression (by simpa using operand)
  refine operand_op ?_ fun tree member => (operand tree (List.mem_reverse.mp member)).1
  rcases calls with rfl | rfl
  · rw [Operation.fits, all]
    simpa using nonempty
  · rw [Operation.fits, all]
    simpa using nonempty

theorem operand_array {elements : List Branch} (operand : ∀ tree ∈ elements, Operand tree) :
    Operand (op .arrayLiteral elements) :=
  operand_op (all_isExpression operand) fun tree member => (operand tree member).1

theorem operand_grouping {inner : Branch} (operand : Operand inner) :
    Operand (op .grouping [inner]) :=
  operand_fixed rfl (by simpa using operand)
    (by simp [Operation.isAssignment, Operation.precedence])

theorem operand_member {base key : Branch} (first : Operand base) (second : Operand key) :
    Operand (op .member [base, key]) :=
  operand_fixed rfl (by simpa using ⟨first, second⟩)
    (by simp [Operation.isAssignment, Operation.precedence])

theorem operand_function {name : Value} {params : List Branch} {body : Branch}
    (named : name = .undefined ∨ ∃ text, name = .string text)
    (texts : ∀ param ∈ params, ∃ text, param = lit (.string text))
    (block : Shaped body ∧ body.value = .statement .block) :
    Operand (op .functionLiteral (lit name :: params ++ [body])) := by
  have all : ((params ++ [body]).map (·.value)).dropLast.all (·.isText) = true := by
    simp only [List.map_append, List.map_cons, List.map_nil, List.dropLast_concat, List.all_map,
      List.all_eq_true]
    intro param member
    obtain ⟨text, rfl⟩ := texts param member
    rfl
  have last : ((params ++ [body]).map (·.value)).getLast? = some (.statement .block) := by
    simp [block.2]
  refine operand_op ?_ fun tree member => ?_
  · rw [List.cons_append, List.map_cons, Operation.fits, Operation.functionFits, last, all]
    rcases named with rfl | ⟨text, rfl⟩
    · rfl
    · rfl
  · simp only [List.cons_append, List.mem_cons, List.mem_append, List.not_mem_nil,
      or_false] at member
    rcases member with rfl | member | rfl
    · exact (operand_lit name).1
    · obtain ⟨text, rfl⟩ := texts tree member
      exact (operand_lit (.string text)).1
    · exact block.1

theorem inner_stmt {s : Statement} {parts : List Branch}
    (fits : s.fits (parts.map (·.value)) = true) (inner : s ≠ .unit)
    (below : ∀ tree ∈ parts, Shaped tree) : Inner (stmt s parts) :=
  ⟨.node fits below, by simpa [stmt, Rose.value, Node.isInner] using inner⟩

theorem all_isInner {done : List Branch} (inner : ∀ tree ∈ done, Inner tree) :
    (done.reverse.map (·.value)).all (·.isInner) = true := by
  simpa using fun tree member => (inner tree member).2

theorem entriesFit_append (done : List Node) (key value : Node)
    (fits : Operation.entriesFit done = true) (entry : Operation.entryFits key value = true) :
    Operation.entriesFit (done ++ [key, value]) = true := by
  induction done using Operation.entriesFit.induct with
  | case1 => simp [Operation.entriesFit, entry]
  | case2 other content rest ih =>
    simp only [Operation.entriesFit, Bool.and_eq_true] at fits
    simp [Operation.entriesFit, fits.1, ih fits.2]
  | case3 => simp [Operation.entriesFit] at fits

/-! ## Rules of expressions -/

theorem arity?_between {lexeme : Lexeme} {o : Operation} (between : lexeme.between? = some o) :
    o.arity? = some (if o = .conditional then 3 else 2) := by
  unfold Lexeme.between? at between
  split at between
  case h_3 => split at between <;> cases between <;> rfl
  all_goals cases between <;> rfl

theorem arity?_before {lexeme : Lexeme} {o : Operation} (before : lexeme.before? = some o) :
    o.arity? = some 1 := by
  unfold Lexeme.before? at before
  split at before <;> cases before <;> rfl

theorem ensures_checkAssignable (target : Branch) :
    Ensures (checkAssignable target) fun _ => target.value.isAssignable = true :=
  .ite (fun assignable => .pure assignable) fun _ => .andThen fun _ => .throw _

theorem ensures_checkTarget (o : Operation) (target : Branch) :
    Ensures (checkTarget o target) fun _ =>
      o.isAssignment = true → target.value.isAssignable = true :=
  .ite (fun _ => (ensures_checkAssignable target).mono fun _ assignable _ => assignable)
    fun plain => .pure fun assigns => absurd assigns plain

theorem ensures_parameters (limit : Nat) {done : List Branch}
    (texts : ∀ param ∈ done, ∃ text, param = lit (.string text)) :
    Ensures (parameters limit done) fun params =>
      ∀ param ∈ params, ∃ text, param = lit (.string text) := by
  induction limit generalizing done with
  | zero => exact .throw _
  | succ limit ih =>
    refine .andThen fun name => ?_
    have all : ∀ param ∈ lit (.string name) :: done, ∃ text, param = lit (.string text) :=
      List.forall_mem_cons.mpr ⟨⟨name, rfl⟩, texts⟩
    refine .andThen fun _ => .ite (fun _ => ih all) fun _ => ?_
    refine .andThen fun _ => .pure fun param member => ?_
    exact all param (List.mem_reverse.mp member)

theorem ensures_parameterList : Ensures parameterList fun params =>
    ∀ param ∈ params, ∃ text, param = lit (.string text) := by
  refine .andThen fun _ => .andThen fun _ => .ite (fun _ => .pure (by simp)) fun _ => ?_
  exact .andThen fun _ => ensures_parameters _ (by simp)

theorem ensures_functionName : Ensures functionName fun name =>
    name = .undefined ∨ ∃ text, name = .string text := by
  refine .andThen fun lexeme => ?_
  split
  case h_1 => exact .andThen fun name => .pure (.inr ⟨name, rfl⟩)
  case h_2 => exact .pure (.inl rfl)

section Expressions

variable {reach : Reach} (sound : reach.Sound)
include sound

theorem ensures_anyExpression : Ensures (anyExpression reach) Operand :=
  sound (.expression 0) trivial

theorem ensures_expressionRule (least : Nat) : Ensures (expressionRule reach least) Operand :=
  .bind (sound .operand trivial) fun left ready => sound (.operators least left) ready

theorem ensures_middleOperands (o : Operation) :
    Ensures (middleOperands reach o) fun middle =>
      (∀ tree ∈ middle, Operand tree) ∧ middle.length = if o = .conditional then 1 else 0 := by
  refine .ite (fun conditional => ?_) fun plain => .pure (by simp [plain])
  refine .bind (ensures_anyExpression sound) fun middle operand => .andThen fun _ => .pure ?_
  simpa [conditional] using operand

theorem ensures_operatorsRule (least : Nat) {left : Branch} (ready : Operand left) :
    Ensures (operatorsRule reach least left) Operand := by
  refine .andThen fun lexeme => ?_
  split
  case h_1 => exact .pure ready
  case h_2 o between =>
    refine .ite (fun _ => .pure ready) fun _ => ?_
    refine .bind (ensures_checkTarget o left) fun _ assignable => .andThen fun _ => ?_
    refine .bind (ensures_middleOperands sound o) fun middle ⟨operands, count⟩ => ?_
    refine .bind (sound (.expression _) trivial) fun right last => ?_
    refine sound (.operators least _) (operand_fixed ?_ ?_ assignable)
    -- Only the conditional has an operand in the middle, and only it wants three.
    · rw [arity?_between between]
      simp only [List.cons_append, List.length_cons, List.length_append, count, List.length_nil]
      split <;> rfl
    · intro tree member
      simp only [List.cons_append, List.mem_cons, List.mem_append, List.not_mem_nil,
        or_false] at member
      rcases member with rfl | member | rfl
      · exact ready
      · exact operands tree member
      · exact last

theorem ensures_operandRule : Ensures (operandRule reach) Operand := by
  refine .andThen fun lexeme => ?_
  split
  case h_1 o before =>
    refine .andThen fun _ => .bind (sound .operand trivial) fun inner operand => ?_
    refine .bind (ensures_checkTarget o inner) fun _ assignable => .pure ?_
    exact operand_fixed (arity?_before before) (List.forall_mem_singleton.mpr operand) assignable
  case h_2 =>
    exact .bind (sound .primary trivial) fun base ready => sound (.suffixes base) ready

theorem ensures_memberAccess {base : Branch} (ready : Operand base) :
    Ensures (memberAccess reach base) Operand := by
  refine .andThen fun _ => .ite (fun _ => ?_) fun _ => ?_
  · exact .andThen fun name => .pure (operand_member ready (operand_lit (.string name)))
  · refine .andThen fun _ => .bind (ensures_anyExpression sound) fun key operand => ?_
    exact .andThen fun _ => .pure (operand_member ready operand)

theorem ensures_argumentList {o : Operation} {done : List Branch}
    (ready : (Goal.arguments o done).Ready) : Ensures (argumentList reach o done) Operand := by
  refine .andThen fun _ => .ite (fun _ => .pure ?_) fun _ => sound (.arguments o done) ready
  exact operand_call ready.1 ready.2.1 ready.2.2

theorem ensures_suffixesRule {base : Branch} (ready : Operand base) :
    Ensures (suffixesRule reach base) Operand := by
  have step (o : Operation) (arity : o.arity? = some 1) :
      Ensures (do checkAssignable base; advance; return op o [base]) Operand := by
    refine .bind (ensures_checkAssignable base) fun _ assignable => .andThen fun _ => .pure ?_
    exact operand_fixed arity (by simpa using ready) fun _ => by simpa using assignable
  refine .andThen fun lexeme => ?_
  split
  case h_1 =>
    exact .bind (ensures_memberAccess sound ready) fun access operand =>
      sound (.suffixes access) operand
  case h_2 =>
    exact .bind (ensures_memberAccess sound ready) fun access operand =>
      sound (.suffixes access) operand
  case h_3 =>
    refine .andThen fun _ => .bind (ensures_argumentList sound ?_) fun call operand =>
      sound (.suffixes call) operand
    exact ⟨.inl rfl, by simp, by simpa using ready⟩
  case h_4 => exact step .postIncrement rfl
  case h_5 => exact step .postDecrement rfl
  case h_6 => exact .pure ready

theorem ensures_argumentsRule {o : Operation} {done : List Branch}
    (ready : (Goal.arguments o done).Ready) : Ensures (argumentsRule reach o done) Operand := by
  refine .bind (ensures_anyExpression sound) fun argument operand => ?_
  have all : ∀ tree ∈ argument :: done, Operand tree :=
    List.forall_mem_cons.mpr ⟨operand, ready.2.2⟩
  refine .andThen fun _ => .ite (fun _ => ?_) fun _ => ?_
  · exact sound (.arguments o (argument :: done)) ⟨ready.1, by simp, all⟩
  · exact .andThen fun _ => .pure (operand_call ready.1 (by simp) all)

theorem ensures_groupingRule : Ensures (groupingRule reach) Operand := by
  refine .andThen fun _ => .bind (ensures_anyExpression sound) fun inner operand => ?_
  exact .andThen fun _ => .pure (operand_grouping operand)

theorem ensures_objectEntry :
    Ensures (objectEntry reach) fun entry => Shaped entry.1 ∧ Shaped entry.2 ∧
      Operation.entryFits entry.1.value entry.2.value = true := by
  refine .andThen fun _ => .ite (fun _ => ?_) fun _ => ?_
  · refine .bind (ensures_anyExpression sound) fun key first => ?_
    refine .andThen fun _ => .andThen fun _ => ?_
    refine .bind (ensures_anyExpression sound) fun value second => .pure ?_
    exact ⟨(operand_grouping first).1, second.1, second.2⟩
  · refine .andThen fun _ => .andThen fun name => .andThen fun _ => .ite (fun _ => ?_) fun _ => ?_
    · refine .bind (ensures_anyExpression sound) fun value operand => .pure ?_
      exact ⟨(operand_lit _).1, (operand_grouping operand).1, rfl⟩
    · refine .ite (fun _ => .pure ?_) fun _ => .fail _
      exact ⟨(operand_lit _).1, (operand_use name).1, beq_self_eq_true name⟩

theorem ensures_entriesRule {done : List Branch} (ready : (Goal.entries done).Ready) :
    Ensures (entriesRule reach done) Operand := by
  refine .bind (ensures_objectEntry sound) fun ⟨key, value⟩ ⟨first, second, entry⟩ => ?_
  have more : (Goal.entries (value :: key :: done)).Ready := by
    refine ⟨List.forall_mem_cons.mpr ⟨second, List.forall_mem_cons.mpr ⟨first, ready.1⟩⟩, ?_⟩
    simpa using entriesFit_append _ _ _ ready.2 entry
  refine .andThen fun _ => .ite (fun _ => sound (.entries _) more) fun _ => ?_
  refine .andThen fun _ => .pure (operand_op more.2 fun tree member => ?_)
  exact more.1 tree (List.mem_reverse.mp member)

theorem ensures_objectRule : Ensures (objectRule reach) Operand := by
  refine .andThen fun _ => .andThen fun _ => .ite (fun _ => .pure ?_) fun _ => ?_
  · exact operand_op rfl (by simp)
  · exact sound (.entries []) ⟨by simp, rfl⟩

theorem ensures_arrayElement : Ensures (arrayElement reach) Operand :=
  .andThen fun _ => .andThen fun _ =>
    .ite (fun _ => .pure (operand_lit _)) fun _ => ensures_anyExpression sound

theorem ensures_elementsRule {done : List Branch} (ready : ∀ tree ∈ done, Operand tree) :
    Ensures (elementsRule reach done) Operand := by
  refine .bind (ensures_arrayElement sound) fun element operand => ?_
  have all : ∀ tree ∈ element :: done, Operand tree := List.forall_mem_cons.mpr ⟨operand, ready⟩
  refine .andThen fun _ => .ite (fun _ => sound (.elements _) all) fun _ => ?_
  refine .andThen fun _ => .pure (operand_array fun tree member => ?_)
  exact all tree (List.mem_reverse.mp member)

theorem ensures_arrayRule : Ensures (arrayRule reach) Operand := by
  refine .andThen fun _ => .andThen fun _ => .ite (fun _ => .pure ?_) fun _ => ?_
  · exact operand_array (by simp)
  · exact sound (.elements []) (by simp [Goal.Ready])

theorem ensures_functionRule : Ensures (functionRule reach) Operand := by
  refine .andThen fun _ => .bind ensures_functionName fun name named => ?_
  refine .bind ensures_parameterList fun params texts => ?_
  refine .bind (sound .block trivial) fun body block => .pure ?_
  exact operand_function named texts block

theorem ensures_constructRule : Ensures (constructRule reach) Operand := by
  refine .andThen fun _ => .bind (sound .primary trivial) fun base ready => ?_
  refine .bind (sound (.callee base) ready) fun callee operand => ?_
  have single : ∀ tree ∈ [callee], Operand tree := List.forall_mem_singleton.mpr operand
  refine .andThen fun _ => .ite (fun _ => ?_) fun _ => .pure ?_
  · exact ensures_argumentList sound ⟨.inr rfl, by simp, single⟩
  · exact operand_call (.inr rfl) (by simp) single

theorem ensures_calleeRule {base : Branch} (ready : Operand base) :
    Ensures (calleeRule reach base) Operand := by
  refine .andThen fun _ => .andThen fun _ => .ite (fun _ => ?_) fun _ => .pure ready
  exact .bind (ensures_memberAccess sound ready) fun access operand =>
    sound (.callee access) operand

theorem ensures_primaryRule : Ensures (primaryRule reach) Operand := by
  have literal (value : Value) : Ensures (literalRule value) Operand :=
    .andThen fun _ => .pure (operand_lit value)
  refine .andThen fun lexeme => ?_
  split
  case h_7 => exact .andThen fun name => .pure (operand_use name)
  case h_8 => exact ensures_groupingRule sound
  case h_9 => exact ensures_objectRule sound
  case h_10 => exact ensures_arrayRule sound
  case h_11 => exact ensures_functionRule sound
  case h_12 => exact ensures_constructRule sound
  case h_13 => exact .fail _
  -- The first six cases are the literals.
  all_goals exact literal _

end Expressions

/-! ## Rules of statements -/

theorem isClause_of_isExpression {node : Node} (expression : node.isExpression = true) :
    node.isClause = true := by
  cases node <;> first | rfl | exact expression

theorem ensures_jumpRule {s : Statement} (jump : s = .breakOut ∨ s = .continueOn) :
    Ensures (jumpRule s) Inner := by
  refine .andThen fun _ => .andThen fun _ => .pure ?_
  rcases jump with rfl | rfl
  · exact inner_stmt rfl (by decide) (by simp)
  · exact inner_stmt rfl (by decide) (by simp)

section Statements

variable {reach : Reach} (sound : reach.Sound)
include sound

theorem ensures_blockRule :
    Ensures (blockRule reach) fun tree => Shaped tree ∧ tree.value = .statement .block :=
  .andThen fun _ => sound (.blockRest []) (by simp [Goal.Ready])

theorem ensures_blockRestRule {done : List Branch} (ready : ∀ tree ∈ done, Inner tree) :
    Ensures (blockRestRule reach done) fun tree =>
      Shaped tree ∧ tree.value = .statement .block := by
  refine .andThen fun _ => .ite (fun _ => ?_) fun _ => .andThen fun lexeme => ?_
  · refine .andThen fun _ => .pure ⟨.node (all_isInner ready) fun tree member => ?_, rfl⟩
    exact (ready tree (List.mem_reverse.mp member)).1
  · split
    case h_1 => exact .fail _
    case h_2 =>
      exact .bind (sound .statement trivial) fun statement inner =>
        sound (.blockRest _) (List.forall_mem_cons.mpr ⟨inner, ready⟩)

theorem ensures_unitRule {done : List Branch} (ready : ∀ tree ∈ done, Inner tree) :
    Ensures (unitRule reach done) fun tree => Shaped tree ∧ tree.value = .statement .unit := by
  refine .andThen fun lexeme => ?_
  split
  case h_1 =>
    refine .pure ⟨.node (all_isInner ready) fun tree member => ?_, rfl⟩
    exact (ready tree (List.mem_reverse.mp member)).1
  case h_2 =>
    exact .bind (sound .statement trivial) fun statement inner =>
      sound (.unit _) (List.forall_mem_cons.mpr ⟨inner, ready⟩)

theorem ensures_condition : Ensures (condition reach) Operand := by
  refine .andThen fun _ => .bind (ensures_anyExpression sound) fun test operand => ?_
  exact .andThen fun _ => .pure operand

theorem ensures_ifRule : Ensures (ifRule reach) Inner := by
  refine .andThen fun _ => .bind (ensures_condition sound) fun test operand => ?_
  refine .bind (sound .statement trivial) fun consequent first => ?_
  refine .andThen fun _ => .ite (fun _ => ?_) fun _ => .pure ?_
  · refine .bind (sound .statement trivial) fun alternative second => .pure ?_
    refine inner_stmt ?_ (by decide) (by simpa using ⟨operand.1, first.1, second.1⟩)
    simpa [Statement.fits, and_assoc] using ⟨operand.2, first.2, second.2⟩
  · refine inner_stmt ?_ (by decide) (by simpa using ⟨operand.1, first.1⟩)
    simpa [Statement.fits] using ⟨operand.2, first.2⟩

theorem ensures_whileRule : Ensures (whileRule reach) Inner := by
  refine .andThen fun _ => .bind (ensures_condition sound) fun test operand => ?_
  refine .bind (sound .statement trivial) fun body inner => .pure ?_
  refine inner_stmt ?_ (by decide) (by simpa using ⟨operand.1, inner.1⟩)
  simpa [Statement.fits] using ⟨operand.2, inner.2⟩

theorem ensures_doRule : Ensures (doRule reach) Inner := by
  refine .andThen fun _ => .bind (sound .statement trivial) fun body inner => ?_
  refine .andThen fun _ => .bind (ensures_condition sound) fun test operand => ?_
  refine .andThen fun _ => .pure ?_
  refine inner_stmt ?_ (by decide) (by simpa using ⟨inner.1, operand.1⟩)
  simpa [Statement.fits] using ⟨inner.2, operand.2⟩

theorem ensures_declarationRule :
    Ensures (declarationRule reach) fun tree => Shaped tree ∧ tree.value.isClause = true := by
  refine .andThen fun _ => .andThen fun name => .andThen fun _ => .ite (fun _ => ?_) fun _ => ?_
  · refine .bind (ensures_anyExpression sound) fun first operand => .pure ⟨.node ?_ ?_, rfl⟩
    · exact operand.2
    · exact List.forall_mem_singleton.mpr operand.1
  · exact .pure ⟨.leaf rfl, rfl⟩

theorem ensures_clause :
    Ensures (clause reach) fun tree => Shaped tree ∧ tree.value.isClause = true := by
  refine .andThen fun _ => .ite (fun _ => ensures_declarationRule sound) fun _ => ?_
  exact (ensures_anyExpression sound).mono fun tree operand =>
    ⟨operand.1, isClause_of_isExpression operand.2⟩

theorem ensures_firstClause :
    Ensures (firstClause reach) fun tree => Shaped tree ∧ tree.value.isClause = true :=
  .andThen fun _ => .ite (fun _ => .pure ⟨(operand_lit _).1, rfl⟩) fun _ => ensures_clause sound

theorem ensures_optionalClause (stop : Punctuator) :
    Ensures (optionalClause reach stop) Operand :=
  .andThen fun _ => .ite (fun _ => .pure (operand_lit _)) fun _ => ensures_anyExpression sound

theorem ensures_forRule : Ensures (forRule reach) Inner := by
  refine .andThen fun _ => .andThen fun _ => .bind (ensures_firstClause sound) fun first start => ?_
  refine .andThen fun _ => .bind (ensures_optionalClause sound _) fun test condition => ?_
  refine .andThen fun _ => .bind (ensures_optionalClause sound _) fun next step => ?_
  refine .andThen fun _ => .bind (sound .statement trivial) fun body inner => .pure ?_
  refine inner_stmt ?_ (by decide) (by simpa using ⟨start.1, condition.1, step.1, inner.1⟩)
  simpa [Statement.fits, and_assoc] using ⟨start.2, condition.2, step.2, inner.2⟩

theorem ensures_returnRule : Ensures (returnRule reach) Inner := by
  refine .andThen fun _ => .andThen fun _ => .ite (fun _ => ?_) fun _ => ?_
  · exact .andThen fun _ => .pure (inner_stmt rfl (by decide) (by simp))
  · refine .bind (ensures_anyExpression sound) fun value operand => .andThen fun _ => .pure ?_
    exact inner_stmt operand.2 (by decide) (List.forall_mem_singleton.mpr operand.1)

theorem ensures_throwRule : Ensures (throwRule reach) Inner := by
  refine .andThen fun _ => .bind (ensures_anyExpression sound) fun value operand => ?_
  refine .andThen fun _ => .pure ?_
  exact inner_stmt operand.2 (by decide) (List.forall_mem_singleton.mpr operand.1)

theorem ensures_expressionStatementRule : Ensures (expressionStatementRule reach) Inner := by
  refine .bind (ensures_clause sound) fun inner clause => ?_
  refine .andThen fun _ => .ite (fun declares => .pure ?_) fun _ => .andThen fun _ => .pure ?_
  · refine inner_stmt ?_ (by decide) (List.forall_mem_singleton.mpr clause.1)
    exact (Bool.and_eq_true_iff.mp declares).1
  · exact inner_stmt clause.2 (by decide) (List.forall_mem_singleton.mpr clause.1)

theorem ensures_statementRule : Ensures (statementRule reach) Inner := by
  refine .andThen fun lexeme => ?_
  split
  case h_1 =>
    refine (ensures_blockRule sound).mono fun tree ⟨shaped, root⟩ => ⟨shaped, ?_⟩
    rw [root]
    rfl
  case h_2 => exact ensures_ifRule sound
  case h_3 => exact ensures_whileRule sound
  case h_4 => exact ensures_doRule sound
  case h_5 => exact ensures_forRule sound
  case h_6 => exact ensures_returnRule sound
  case h_7 => exact ensures_throwRule sound
  case h_8 => exact ensures_jumpRule (.inl rfl)
  case h_9 => exact ensures_jumpRule (.inr rfl)
  case h_10 => exact ensures_expressionStatementRule sound

end Statements

/-! ## Whole programs -/

theorem ensures_rule {reach : Reach} (sound : reach.Sound) (goal : Goal) (ready : goal.Ready) :
    Ensures (goal.rule reach) goal.Reached := by
  cases goal with
  | unit done => exact ensures_unitRule sound ready
  | statement => exact ensures_statementRule sound
  | block => exact ensures_blockRule sound
  | blockRest done => exact ensures_blockRestRule sound ready
  | expression least => exact ensures_expressionRule sound least
  | operators least left => exact ensures_operatorsRule sound least ready
  | operand => exact ensures_operandRule sound
  | suffixes base => exact ensures_suffixesRule sound ready
  | primary => exact ensures_primaryRule sound
  | callee base => exact ensures_calleeRule sound ready
  | arguments o done => exact ensures_argumentsRule sound ready
  | entries done => exact ensures_entriesRule sound ready
  | elements done => exact ensures_elementsRule sound ready

/-- However deep the goals may nest, each gives what it should. -/
theorem sound_parse (fuel : Nat) : Reach.Sound (Goal.parse fuel) := by
  induction fuel with
  | zero => exact fun goal _ => .throw _
  -- A rule reaches its goals with less fuel, for which the hypothesis holds.
  | succ fuel ih => exact fun goal ready => ensures_rule ih goal ready

theorem run_of_parseTree {source : String} {tree : Branch} (parsed : parseTree source = .ok tree) :
    ∃ first last fuel, Cursor.start (lexResults source) source.utf8ByteSize = .ok first ∧
      (Goal.parse fuel (.unit [])).run first = .ok (tree, last) := by
  unfold parseTree parseResults at parsed
  cases started : Cursor.start (lexResults source) source.utf8ByteSize with
  | error e =>
    rw [started] at parsed
    cases parsed
  | ok cursor =>
    rw [started] at parsed
    cases run : (Goal.parse (goalsPerToken * ((lexResults source).length + 2)) (.unit [])).run
        cursor with
    | error e =>
      simp only [bind, Except.bind, run] at parsed
      cases parsed
    | ok answer =>
      simp only [bind, Except.bind, run] at parsed
      cases parsed
      exact ⟨cursor, answer.2, _, rfl, run⟩

theorem tree_of_parse {source : String} {code : Code} (parsed : parse source = .ok code) :
    ∃ tree, parseTree source = .ok tree ∧ code = .ofRose tree := by
  unfold parse at parsed
  cases read : parseTree source with
  | error e =>
    rw [read] at parsed
    cases parsed
  | ok tree =>
    rw [read] at parsed
    cases parsed
    exact ⟨tree, rfl, rfl⟩

theorem shaped_parseTree {source : String} {tree : Branch} (parsed : parseTree source = .ok tree) :
    Shaped tree ∧ tree.value = .statement .unit := by
  obtain ⟨first, last, fuel, -, run⟩ := run_of_parseTree parsed
  exact sound_parse fuel (.unit []) (by simp [Goal.Ready]) first tree last run

/-- Parsed code is that of a shaped unit. -/
theorem rooted_parse {source : String} {code : Code} (parsed : parse source = .ok code) :
    code.Rooted .unit := by
  obtain ⟨tree, read, same⟩ := tree_of_parse parsed
  exact ⟨tree, same, shaped_parseTree read⟩

end StepScript
