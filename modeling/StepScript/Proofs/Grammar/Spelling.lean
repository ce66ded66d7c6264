import StepScript.Proofs.Grammar.Cursor
import StepScript.Proofs.Grammar.Printing

/-! What is parsed spells the tree that comes out.

Each goal moves the cursor over tokens that spell the tree it gives, or that part
of the tree which it adds to what was there. The same induction shows how tightly
operators bind: an operator takes its right operand only from operators that are
strong enough, and it stops in front of one that is not, so the token at hand
belongs to the conditions.
-/

set_option autoImplicit false

namespace StepScript

/-! ## Binding strength -/

def Node.between? : Node → Option Operation
  | operation o => if o.isBetween then some o else none
  | _ => none

/-- The operands of an operator, by their nodes, bind as tightly as their places
ask for. -/
structure Operation.Binds (o : Operation) (parts : List Node) : Prop where
  first : o.isBetween = true → ∀ node ∈ parts.head?, ∀ left ∈ node.between?,
    o.precedence < left.rightPrecedence
  last : o.isBetween = true → ∀ node ∈ parts.getLast?, ∀ right ∈ node.between?,
    o.rightPrecedence ≤ right.precedence
  operand : o.isBefore = true → ∀ node ∈ parts, node.between? = none

/-- Every operator of the tree has operands that bind as they should. -/
inductive Bound : Branch → Prop where
  | node {value : Node} {children : List Branch}
    (binds : ∀ o, value = .operation o → o.Binds (children.map (·.value)))
    (below : ∀ child ∈ children, Bound child) : Bound (.node value children)

/-- An operator at the root of the tree has at least this strength. -/
def Strong (least : Nat) (tree : Branch) : Prop :=
  ∀ o ∈ tree.value.between?, least ≤ o.precedence

def Lexeme.Stops (least : Nat) (lexeme : Lexeme) : Prop :=
  ∀ o ∈ lexeme.between?, o.precedence < least

namespace Bound

theorem leaf (value : Node) : Bound (.leaf value) := by
  constructor
  · intro o _
    constructor <;> simp
  · simp

theorem stmt {s : Statement} {children : List Branch} (below : ∀ child ∈ children, Bound child) :
    Bound (Branch.stmt s children) := by
  constructor
  · intro o is
    cases is
  · exact below

theorem plain {o : Operation} {children : List Branch} (between : o.isBetween = false)
    (before : o.isBefore = false) (below : ∀ child ∈ children, Bound child) :
    Bound (Branch.op o children) := by
  constructor
  · intro o' is
    cases is
    constructor <;> simp [between, before]
  · exact below

theorem before {o : Operation} {inner : Branch} (between : o.isBetween = false)
    (operand : inner.value.between? = none) (bound : Bound inner) :
    Bound (Branch.op o [inner]) := by
  constructor
  · intro o' is
    cases is
    constructor <;> simp [between, operand]
  · simpa using bound

theorem between {o : Operation} {left right : Branch} {middle : List Branch}
    (before : o.isBefore = false)
    (first : ∀ l ∈ left.value.between?, o.precedence < l.rightPrecedence)
    (last : Strong o.rightPrecedence right) (boundLeft : Bound left) (boundRight : Bound right)
    (inside : ∀ tree ∈ middle, Bound tree) :
    Bound (Branch.op o (left :: middle ++ [right])) := by
  constructor
  · intro o' is
    cases is
    constructor
    · simpa using fun _ => first
    · intro _ node member
      rw [List.map_append, List.map_singleton, List.getLast?_concat] at member
      cases member
      exact last
    · simp [before]
  · simp only [List.cons_append, List.mem_cons, List.mem_append, List.not_mem_nil, or_false]
    rintro tree (rfl | member | rfl)
    · exact boundLeft
    · exact inside tree member
    · exact boundRight

end Bound

theorem between?_op {o : Operation} {children : List Branch} (between : o.isBetween = false) :
    (Branch.op o children).value.between? = none := by
  simp [Branch.op, Rose.value, Node.between?, between]

/-! ## Signs -/

theorem Operation.isBefore_of_isBetween {o : Operation} (between : o.isBetween = true) :
    o.isBefore = false := by
  cases o <;> first | rfl | cases between

theorem Operation.isBetween_of_isBefore {o : Operation} (before : o.isBefore = true) :
    o.isBetween = false := by
  cases o <;> first | rfl | cases before

namespace Lexeme

theorem sign_of_between? {lexeme : Lexeme} {o : Operation} (found : lexeme.between? = some o) :
    o.isBetween = true ∧ o.sign? = some lexeme := by
  cases lexeme with
  | keyword k => cases k <;> cases found <;> exact ⟨rfl, rfl⟩
  | punctuator p => cases p <;> cases found <;> exact ⟨rfl, rfl⟩
  | _ => cases found

theorem ne_eof_of_sign {lexeme : Lexeme} {o : Operation} (sign : o.sign? = some lexeme) :
    lexeme ≠ .eof := by
  rintro rfl
  cases o <;> cases sign

theorem sign_of_before? {lexeme : Lexeme} {o : Operation} (found : lexeme.before? = some o) :
    o.isBefore = true ∧ o.sign? = some lexeme := by
  cases lexeme with
  | keyword k => cases k <;> cases found <;> exact ⟨rfl, rfl⟩
  | punctuator p => cases p <;> cases found <;> exact ⟨rfl, rfl⟩
  | _ => cases found

end Lexeme

/-! ## Spellings of pieces -/

namespace Spells

variable {front back : List Piece} {lexemes more : List Lexeme}

theorem append (first : Spells front lexemes) (second : Spells back more) :
    Spells (front ++ back) (lexemes ++ more) := by
  induction first with
  | nil => exact second
  | cons spelled _ ih =>
    rw [List.append_assoc]
    exact .cons spelled ih

theorem one {piece : Piece} (spelled : piece.Spelled lexemes) : Spells [piece] lexemes := by
  simpa using cons spelled nil

theorem sign {p : Punctuator} (rest : Spells front lexemes) :
    Spells (.sign p :: front) (.punctuator p :: lexemes) :=
  cons (.token _) rest

theorem word {k : Keyword} (rest : Spells front lexemes) :
    Spells (.word k :: front) (.keyword k :: lexemes) :=
  cons (.token _) rest

theorem name {text : String} (rest : Spells front lexemes) :
    Spells (.name text :: front) (.identifier text :: lexemes) :=
  cons (.token _) rest

theorem operator {o : Operation} {lexeme : Lexeme} (sign : o.sign? = some lexeme) :
    Spells o.signPieces [lexeme] := by
  rw [Operation.signPieces, sign]
  exact one (.token _)

end Spells

namespace Branch

theorem pieces_node (value : Node) (children : List Branch) :
    pieces (.node value children) = value.pieces (children.map part) := by
  rw [← parts_eq_map]
  rfl

theorem pieces_op (o : Operation) (children : List Branch) :
    pieces (op o children) = o.pieces (children.map part) :=
  pieces_node (.operation o) children

theorem pieces_stmt (s : Statement) (children : List Branch) :
    pieces (stmt s children) = s.pieces (children.map part) :=
  pieces_node (.statement s) children

@[simp] theorem whole_part (tree : Branch) : (part tree).whole = pieces tree := rfl

theorem pieces_between {o : Operation} (between : o.isBetween = true) (left right : Branch) :
    pieces (op o [left, right]) = pieces left ++ o.signPieces ++ pieces right := by
  cases o <;> first | rfl | cases between

theorem pieces_before {o : Operation} (before : o.isBefore = true) (inner : Branch) :
    pieces (op o [inner]) = o.signPieces ++ pieces inner := by
  cases o <;> first | rfl | cases before

/-- An `undefined` is also a spelling of the place where it can be left out. -/
theorem optional_eq_pieces {tree : Branch} (some : tree.value ≠ .literal .undefined) :
    (part tree).optional = pieces tree := by
  obtain ⟨value, children⟩ := tree
  unfold Part.optional
  split
  · next is => exact absurd is some
  · rfl

theorem spells_optional {tree : Branch} {lexemes : List Lexeme}
    (spells : Spells (pieces tree) lexemes) : Spells (part tree).optional lexemes := by
  by_cases gap : tree.value = .literal .undefined
  · obtain ⟨value, children⟩ := tree
    cases gap
    cases spells with
    | cons spelled rest =>
      cases spelled
      cases rest
      exact .one .written
  · rwa [optional_eq_pieces gap]

theorem spells_access {key : Branch} {lexemes : List Lexeme}
    (spells : Spells (pieces key) lexemes) :
    Spells (part key).access
      (.punctuator .openBracket :: (lexemes ++ [.punctuator .closeBracket])) := by
  obtain ⟨value, children⟩ := key
  have general : Spells (.sign .openBracket :: pieces (.node value children) ++
      [.sign .closeBracket])
      (.punctuator .openBracket :: (lexemes ++ [.punctuator .closeBracket])) :=
    .sign (spells.append (.sign .nil))
  unfold Part.access
  split
  · next name is =>
    cases is
    cases spells with
    | cons spelled rest =>
      cases spelled
      cases rest
      exact .one (.bracketed name)
  · exact general

end Branch

/-! ## Goals -/

namespace Goal

/-- What has been read in part is fit to be continued where this token is at
hand. -/
def Primed : Goal → Lexeme → Prop
  | unit done, _ | blockRest done, _ | arguments _ done, _ | entries done, _ =>
    ∀ tree ∈ done, Bound tree
  | elements done, lexeme =>
    (∀ tree ∈ done, Bound tree) ∧ (done = [] → lexeme ≠ .punctuator .closeBracket)
  | operators least left, lexeme =>
    Bound left ∧ Strong least left ∧ ∀ o ∈ left.value.between?, lexeme.Stops o.rightPrecedence
  | suffixes base, _ | callee base, _ => Bound base ∧ base.value.between? = none
  | statement, _ | block, _ | expression _, _ | operand, _ | primary, _ => True

/-- The tokens that a goal moves over, the tree that it gives and the token at
hand afterwards. -/
def Read : Goal → List Lexeme → Branch → Lexeme → Prop
  | unit done, moved, tree, next => Bound tree ∧ next = .eof ∧
    ∃ more, tree = Branch.stmt .unit (done.reverse ++ more) ∧
      Spells (more.flatMap Branch.pieces) moved
  | blockRest done, moved, tree, _ => Bound tree ∧
    ∃ more, tree = Branch.stmt .block (done.reverse ++ more) ∧
      Spells (more.flatMap Branch.pieces ++ [.sign .closeBrace]) moved
  | statement, moved, tree, _ | block, moved, tree, _ => Bound tree ∧ Spells tree.pieces moved
  | expression least, moved, tree, next =>
    Bound tree ∧ Strong least tree ∧ next.Stops least ∧ Spells tree.pieces moved
  | operators least left, moved, tree, next =>
    Bound tree ∧ Strong least tree ∧ next.Stops least ∧
      ∃ more, tree.pieces = left.pieces ++ more ∧ Spells more moved
  | operand, moved, tree, _ | primary, moved, tree, _ =>
    Bound tree ∧ tree.value.between? = none ∧ Spells tree.pieces moved
  | suffixes base, moved, tree, _ | callee base, moved, tree, _ =>
    Bound tree ∧ tree.value.between? = none ∧
      ∃ more, tree.pieces = base.pieces ++ more ∧ Spells more moved
  | arguments o done, moved, tree, _ => (∀ child ∈ tree.children, Bound child) ∧
    ∃ more, more ≠ [] ∧ tree = Branch.op o (done.reverse ++ more) ∧
      Spells (separated (more.map Branch.pieces) ++ [.sign .closeParen]) moved
  | entries done, moved, tree, _ => Bound tree ∧
    ∃ more, Part.entries (more.map Branch.part) ≠ [] ∧
      tree = Branch.op .objectLiteral (done.reverse ++ more) ∧
      Spells (separated (Part.entries (more.map Branch.part)) ++ [.sign .closeBrace]) moved
  | elements done, moved, tree, _ => Bound tree ∧
    ∃ more, more ≠ [] ∧ tree = Branch.op .arrayLiteral (done.reverse ++ more) ∧
      Spells (separated (more.map (Branch.part · |>.optional)) ++ [.sign .closeBracket]) moved ∧
      (done = [] → ∀ only, more = [only] →
        Spells (only.pieces ++ [.sign .closeBracket]) moved)

end Goal

def Reach.Faithful (reach : Reach) : Prop :=
  ∀ (goal : Goal) (lexeme : Lexeme), goal.Primed lexeme → Parse.Reads (reach goal) lexeme goal.Read

open Branch Parse

theorem separated_cons {rest : List (List Piece)} (first : List Piece) (more : rest ≠ []) :
    separated (first :: rest) = first ++ .sign .comma :: separated rest := by
  cases rest with
  | nil => exact absurd rfl more
  | cons second rest => rfl

/-! ## Rules of expressions -/

namespace Parse.Reads

variable {β : Type} {lexeme : Lexeme} {Q : List Lexeme → β → Lexeme → Prop}

theorem expectPropertyName {f : String → Parse β}
    (next : ∀ name hand, lexeme.propertyName? = some name →
      Reads (f name) hand fun more b last => Q (lexeme :: more) b last) :
    Reads (Parse.expectPropertyName >>= f) lexeme Q := by
  unfold Parse.expectPropertyName
  rw [bind_assoc]
  apply peek
  cases lexeme with
  | punctuator p => exact .fail _
  | eof => exact .fail _
  | _ => simpa using advance (by simp) fun hand => next _ hand rfl

theorem checkAssignable {f : Unit → Parse β} {target : Branch} (next : Reads (f ()) lexeme Q) :
    Reads (StepScript.checkAssignable target >>= f) lexeme Q := by
  unfold StepScript.checkAssignable
  by_cases assignable : target.value.isAssignable = true
  · simpa [assignable] using next
  · intro cursor result after _ run
    rw [if_neg assignable] at run
    cases run

theorem checkTarget {f : Unit → Parse β} {o : Operation} {target : Branch}
    (next : Reads (f ()) lexeme Q) : Reads (StepScript.checkTarget o target >>= f) lexeme Q := by
  unfold StepScript.checkTarget
  by_cases writes : o.isAssignment = true
  · rw [if_pos writes]
    exact checkAssignable next
  · rw [if_neg writes]
    exact next

end Parse.Reads

theorem reads_functionName {α : Type} {lexeme : Lexeme} {f : Value → Parse α}
    {Q : List Lexeme → α → Lexeme → Prop}
    (next : ∀ moved name hand, Spells (part (lit name)).title moved →
      Reads (f name) hand fun more a last => Q (moved ++ more) a last) :
    Reads (functionName >>= f) lexeme Q := by
  unfold functionName
  rw [bind_assoc]
  apply Reads.peek
  cases lexeme with
  | identifier text =>
    rw [bind_assoc]
    apply Reads.expectIdentifier
    intro name hand _
    exact next [.identifier name] (.string name) hand (.name .nil)
  | _ => exact next [] .undefined _ .nil

theorem reads_parameters (limit : Nat) {done : List Branch} {lexeme : Lexeme}
    (bound : ∀ tree ∈ done, Bound tree) :
    Reads (parameters limit done) lexeme fun moved params _ => (∀ tree ∈ params, Bound tree) ∧
      ∃ more, more ≠ [] ∧ params = done.reverse ++ more ∧
        Spells (separated (more.map (part · |>.title)) ++ [.sign .closeParen]) moved := by
  -- By induction on the limit; `done` holds the names read so far, the last one first.
  induction limit generalizing done lexeme with
  | zero => exact .throw _
  | succ limit ih =>
    unfold parameters
    apply Reads.expectIdentifier
    intro name hand _
    have all : ∀ tree ∈ lit (.string name) :: done, Bound tree :=
      List.forall_mem_cons.mpr ⟨.leaf _, bound⟩
    apply Reads.eat
    · intro _ hand
      apply Reads.mono (ih all)
      rintro moved params next ⟨boundAll, more, some, same, spells⟩
      refine ⟨boundAll, lit (.string name) :: more, by simp, by simpa using same, ?_⟩
      rw [List.map_cons, separated_cons _ (by simpa using some)]
      exact .name (.sign spells)
    · intro _
      apply Reads.expect
      intro hand
      apply Reads.pure
      constructor
      · exact fun tree member => all tree (List.mem_reverse.mp member)
      · exact ⟨[lit (.string name)], by simp, by simp, .name (.sign .nil)⟩

theorem reads_parameterList {lexeme : Lexeme} :
    Reads parameterList lexeme fun moved params _ => (∀ tree ∈ params, Bound tree) ∧
      Spells (.sign .openParen :: separated (params.map (part · |>.title)) ++ [.sign .closeParen])
        moved := by
  apply Reads.expect
  intro hand
  apply Reads.eat
  · intro _ hand
    apply Reads.pure
    exact ⟨by simp, .sign (.sign .nil)⟩
  · intro _ cursor params after _ run
    obtain ⟨moved, moves, bound, more, _, rfl, spells⟩ :=
      reads_parameters (cursor.rest.length + 1) (by simp) cursor params after rfl run
    exact ⟨moved, moves, bound, .sign spells⟩

section Expressions

variable {reach : Reach} (faithful : reach.Faithful) {lexeme : Lexeme}
include faithful

theorem reads_anyExpression {α : Type} {f : Branch → Parse α}
    {Q : List Lexeme → α → Lexeme → Prop}
    (next : ∀ moved tree hand, Bound tree → Spells tree.pieces moved →
      Reads (f tree) hand fun more a last => Q (moved ++ more) a last) :
    Reads (anyExpression reach >>= f) lexeme Q :=
  .bind (faithful (.expression 0) lexeme trivial)
    fun moved tree hand ⟨bound, _, _, spells⟩ => next moved tree hand bound spells

theorem reads_expressionRule (least : Nat) :
    Reads (expressionRule reach least) lexeme (Goal.expression least).Read := by
  apply Reads.bind (faithful .operand lexeme trivial)
  rintro moved left hand ⟨bound, single, spells⟩
  have primed : (Goal.operators least left).Primed hand := by
    simp [Goal.Primed, Strong, single, bound]
  apply Reads.mono (faithful (.operators least left) hand primed)
  rintro more tree next ⟨bound, strong, stops, added, same, rest⟩
  exact ⟨bound, strong, stops, same ▸ spells.append rest⟩

theorem reads_middleOperands {α : Type} {o : Operation} (between : o.isBetween = true)
    {f : List Branch → Parse α} {Q : List Lexeme → α → Lexeme → Prop}
    (next : ∀ moved middle hand added, (∀ tree ∈ middle, Bound tree) → Spells added moved →
      (∀ left right : Branch, pieces (op o (left :: middle ++ [right])) =
        left.pieces ++ (o.signPieces ++ (added ++ right.pieces))) →
      Reads (f middle) hand fun more a last => Q (moved ++ more) a last) :
    Reads (middleOperands reach o >>= f) lexeme Q := by
  unfold middleOperands
  by_cases conditional : o = .conditional
  · cases conditional
    simp only [if_pos, bind_assoc, pure_bind]
    apply reads_anyExpression faithful
    intro moved middle hand bound spells
    apply Reads.expect
    intro hand
    have spelled : Spells (middle.pieces ++ [.sign .colon]) (moved ++ [.punctuator .colon]) :=
      spells.append (.sign .nil)
    have reads := next _ [middle] hand _ (by simpa using bound) spelled fun left right => by
      simp [pieces_op, Operation.pieces, Operation.signPieces,
        Operation.sign?, Piece.sign]
    simpa using reads
  · simp only [if_neg conditional, pure_bind]
    have reads := next [] [] lexeme [] (by simp) .nil fun left right => by
      simp [pieces_between between left right]
    simpa using reads

theorem reads_operatorsRule (least : Nat) {left : Branch}
    (primed : (Goal.operators least left).Primed lexeme) :
    Reads (operatorsRule reach least left) lexeme (Goal.operators least left).Read := by
  obtain ⟨boundLeft, strongLeft, stopsLeft⟩ := primed
  apply Reads.peek
  cases found : lexeme.between? with
  | none =>
    apply Reads.pure
    exact ⟨boundLeft, strongLeft, by simp [Lexeme.Stops, found], [], by simp, .nil⟩
  | some o =>
    obtain ⟨between, sign⟩ := Lexeme.sign_of_between? found
    apply Reads.ite
    · intro weak
      apply Reads.pure
      exact ⟨boundLeft, strongLeft, by simpa [Lexeme.Stops, found] using weak, [], by simp, .nil⟩
    · intro enough
      apply Reads.checkTarget
      apply Reads.advance (Lexeme.ne_eof_of_sign sign)
      intro hand
      apply reads_middleOperands faithful between
      intro moved middle hand added inside spelled printed
      apply Reads.bind (faithful (.expression o.rightPrecedence) hand trivial)
      rintro moved' right hand ⟨boundRight, strongRight, stops, spells⟩
      have first : ∀ l ∈ left.value.between?, o.precedence < l.rightPrecedence :=
        fun l is => stopsLeft l is o found
      have bound : Bound (op o (left :: middle ++ [right])) :=
        .between (Operation.isBefore_of_isBetween between) first strongRight boundLeft boundRight
          inside
      -- What has been made is the left operand of what follows, and is fit for it: the right
      -- operand has stopped at a sign that is too weak for `o`.
      have value : ∀ l ∈ (op o (left :: middle ++ [right])).value.between?, l = o := by
        simp [op, Rose.value, Node.between?, between]
      have primed : (Goal.operators least (op o (left :: middle ++ [right]))).Primed hand := by
        constructor
        · exact bound
        · constructor
          · intro l is
            rw [value l is]
            exact Nat.le_of_not_lt enough
          · intro l is
            rw [value l is]
            exact stops
      apply Reads.mono (faithful _ hand primed)
      rintro rest tree next ⟨boundTree, strong, stopsTree, more, same, spelledMore⟩
      have together := ((Spells.operator sign).append (spelled.append spells)).append spelledMore
      exact ⟨boundTree, strong, stopsTree, _, by rw [same, printed, List.append_assoc],
        by simpa using together⟩

theorem reads_operandRule : Reads (operandRule reach) lexeme Goal.operand.Read := by
  apply Reads.peek
  cases found : lexeme.before? with
  | some o =>
    obtain ⟨before, sign⟩ := Lexeme.sign_of_before? found
    have between := Operation.isBetween_of_isBefore before
    apply Reads.advance (Lexeme.ne_eof_of_sign sign)
    intro hand
    apply Reads.bind (faithful .operand hand trivial)
    rintro moved inner hand ⟨bound, single, spells⟩
    apply Reads.checkTarget
    apply Reads.pure
    have spelled := (Spells.operator sign).append spells
    rw [← pieces_before before] at spelled
    exact ⟨.before between single bound, between?_op between, by simpa using spelled⟩
  | none =>
    apply Reads.bind (faithful .primary lexeme trivial)
    rintro moved base hand ⟨bound, single, spells⟩
    apply Reads.mono (faithful (.suffixes base) hand ⟨bound, single⟩)
    rintro rest tree next ⟨boundTree, none, more, same, spelled⟩
    exact ⟨boundTree, none, same ▸ spells.append spelled⟩

theorem reads_memberAccess {α : Type} {base : Branch} (bound : Bound base)
    {f : Branch → Parse α} {Q : List Lexeme → α → Lexeme → Prop}
    (next : ∀ moved tree hand more, Bound tree → tree.value.between? = none →
      tree.pieces = base.pieces ++ more → Spells more moved →
      Reads (f tree) hand fun more a last => Q (moved ++ more) a last) :
    Reads (memberAccess reach base >>= f) lexeme Q := by
  -- Both forms of access come to one node, with the key spelled in its own way.
  have made {key : Branch} {moved : List Lexeme} {hand : Lexeme} (boundKey : Bound key)
      (spells : Spells (part key).access moved) :
      Reads (f (op .member [base, key])) hand fun more a last => Q (moved ++ more) a last := by
    apply next moved _ hand _ _ (between?_op rfl) rfl spells
    exact .plain rfl rfl (by simpa using ⟨bound, boundKey⟩)
  unfold memberAccess
  rw [bind_assoc]
  apply Reads.eat
  · intro _ hand
    rw [if_pos rfl, bind_assoc]
    apply Reads.expectPropertyName
    intro name last names
    have spelled : Spells (part (lit (.string name))).access [.punctuator .dot, hand] :=
      .one (.dotted names)
    simpa using @made (lit (.string name)) _ last (Bound.leaf _) spelled
  · intro _
    simp only [Bool.false_eq_true, if_false, bind_assoc, pure_bind]
    apply Reads.expect
    intro hand
    apply reads_anyExpression faithful
    intro moved key hand boundKey spells
    apply Reads.expect
    intro hand
    simpa using made boundKey (spells_access spells)

theorem reads_argumentList {o : Operation} {done : List Branch}
    (bound : ∀ tree ∈ done, Bound tree) :
    Reads (argumentList reach o done) lexeme fun moved tree _ =>
      (∀ child ∈ tree.children, Bound child) ∧
        ∃ args, tree = op o (done.reverse ++ args) ∧
          Spells (separated (args.map pieces) ++ [.sign .closeParen]) moved := by
  apply Reads.eat
  · intro _ hand
    apply Reads.pure
    constructor
    · simpa [op, Rose.children] using bound
    · exact ⟨[], by simp, .sign .nil⟩
  · intro _
    apply Reads.mono (faithful (.arguments o done) lexeme bound)
    rintro moved tree next ⟨below, args, _, same, spells⟩
    exact ⟨below, args, same, spells⟩

theorem reads_argumentsRule {o : Operation} {done : List Branch}
    (bound : ∀ tree ∈ done, Bound tree) :
    Reads (argumentsRule reach o done) lexeme (Goal.arguments o done).Read := by
  apply reads_anyExpression faithful
  intro moved argument hand boundArgument spells
  have all : ∀ tree ∈ argument :: done, Bound tree :=
    List.forall_mem_cons.mpr ⟨boundArgument, bound⟩
  apply Reads.eat
  · intro _ hand
    apply Reads.mono (faithful (.arguments o (argument :: done)) hand all)
    rintro moved' tree next ⟨below, more, some, same, spelled⟩
    have nonempty : more.map pieces ≠ [] := by simpa using some
    refine ⟨below, argument :: more, by simp, by simpa using same, ?_⟩
    rw [List.map_cons, separated_cons _ nonempty]
    simpa using spells.append (.sign spelled)
  · intro _
    apply Reads.expect
    intro hand
    apply Reads.pure
    constructor
    · exact fun tree member => all tree (List.mem_reverse.mp member)
    · exact ⟨[argument], by simp, by simp, spells.append (.sign .nil)⟩

theorem reads_suffixesRule {base : Branch} (bound : Bound base)
    (single : base.value.between? = none) :
    Reads (suffixesRule reach base) lexeme (Goal.suffixes base).Read := by
  -- A member can have further suffixes, which are read with it as their base.
  have access : Reads (memberAccess reach base >>= fun tree => reach (.suffixes tree)) lexeme
      (Goal.suffixes base).Read := by
    apply reads_memberAccess faithful bound
    intro moved tree hand more boundTree none same spells
    apply Reads.mono (faithful (.suffixes tree) hand ⟨boundTree, none⟩)
    rintro rest last next ⟨boundLast, noneLast, more', same', spells'⟩
    exact ⟨boundLast, noneLast, more ++ more', by rw [same', same, List.append_assoc],
      spells.append spells'⟩
  -- Behind a step by one there are no further suffixes.
  have stepped (o : Operation) (p : Punctuator) (between : o.isBetween = false)
      (before : o.isBefore = false)
      (printed : (op o [base]).pieces = base.pieces ++ [.sign p]) :
      Goal.Read (.suffixes base) [.punctuator p] (op o [base]) lexeme :=
    ⟨.plain between before (by simpa using bound), between?_op between, _, printed,
      .sign .nil⟩
  apply Reads.peek
  split
  case h_1 => exact access
  case h_2 => exact access
  case h_3 =>
    apply Reads.advance (by simp)
    intro hand
    apply Reads.bind (reads_argumentList faithful (by simpa using bound))
    rintro moved tree hand ⟨below, args, rfl, spells⟩
    have boundCall : Bound (op .call ([base].reverse ++ args)) := .plain rfl rfl below
    have printed : (op .call ([base].reverse ++ args)).pieces = base.pieces ++
        .sign .openParen :: (separated (args.map pieces) ++ [.sign .closeParen]) := by
      simp [pieces_op, Operation.pieces, Part.arguments, Function.comp_def]
    apply Reads.mono (faithful (.suffixes _) hand ⟨boundCall, between?_op rfl⟩)
    rintro rest last next ⟨boundLast, noneLast, more, same, spells'⟩
    refine ⟨boundLast, noneLast, _, by rw [same, printed, List.append_assoc], ?_⟩
    simpa using (Spells.sign spells).append spells'
  case h_4 =>
    apply Reads.checkAssignable
    apply Reads.advance (by simp)
    intro hand
    exact .pure (stepped .postIncrement .plusPlus rfl rfl rfl)
  case h_5 =>
    apply Reads.checkAssignable
    apply Reads.advance (by simp)
    intro hand
    exact .pure (stepped .postDecrement .minusMinus rfl rfl rfl)
  case h_6 => exact .pure ⟨bound, single, [], by simp, .nil⟩

theorem reads_groupingRule : Reads (groupingRule reach) lexeme Goal.primary.Read := by
  apply Reads.expect
  intro hand
  apply reads_anyExpression faithful
  intro moved inner hand bound spells
  apply Reads.expect
  intro hand
  apply Reads.pure
  exact ⟨.plain rfl rfl (by simpa using bound), between?_op rfl,
    .sign (spells.append (.sign .nil))⟩

theorem reads_objectEntry :
    Reads (objectEntry reach) lexeme fun moved entry _ => Bound entry.1 ∧ Bound entry.2 ∧
      Spells (Part.entry (part entry.1) (part entry.2)) moved := by
  apply Reads.eat
  · intro _ hand
    rw [if_pos rfl]
    apply reads_anyExpression faithful
    intro moved key hand boundKey spells
    apply Reads.expect
    intro hand
    apply Reads.expect
    intro hand
    apply reads_anyExpression faithful
    intro moved' value hand boundValue spells'
    apply Reads.pure
    refine ⟨.plain rfl rfl (by simpa using boundKey), boundValue, ?_⟩
    -- The parentheses of the key are those of its brackets.
    have inside : (part (op .grouping [key])).inside = key.pieces := by
      simp [op, part, parts]
    have printed : Part.entry (part (op .grouping [key])) (part value) =
        .sign .openBracket ::
          (key.pieces ++ .sign .closeBracket :: .sign .colon :: value.pieces) := by
      rw [← inside]
      rfl
    rw [printed]
    simpa using Spells.sign (spells.append (.sign (.sign spells')))
  · intro _
    apply Reads.peek
    apply Reads.expectPropertyName
    intro name hand names
    apply Reads.eat
    · intro _ hand
      apply reads_anyExpression faithful
      intro moved value hand bound spells
      apply Reads.pure
      refine ⟨.leaf _, .plain rfl rfl (by simpa using bound), ?_⟩
      -- The value is grouped, but no parentheses stand in the text.
      have inside : (part (op .grouping [value])).inside = value.pieces := by
        simp [op, part, parts]
      have printed : Part.entry (part (lit (.string name))) (part (op .grouping [value])) =
          .key name :: .sign .colon :: value.pieces := by
        rw [← inside]
        rfl
      rw [printed]
      simpa using Spells.cons (.key names) (.sign spells)
    · intro _
      rw [if_neg Bool.false_ne_true]
      cases lexeme with
      | identifier text =>
        cases names
        exact .pure ⟨.leaf _, .leaf _, .name .nil⟩
      | _ => exact .fail _

theorem reads_entriesRule {done : List Branch} (bound : ∀ tree ∈ done, Bound tree) :
    Reads (entriesRule reach done) lexeme (Goal.entries done).Read := by
  apply Reads.bind (reads_objectEntry faithful)
  rintro moved ⟨key, value⟩ hand ⟨boundKey, boundValue, spells⟩
  have all : ∀ tree ∈ value :: key :: done, Bound tree :=
    List.forall_mem_cons.mpr ⟨boundValue, List.forall_mem_cons.mpr ⟨boundKey, bound⟩⟩
  apply Reads.eat
  · intro _ hand
    apply Reads.mono (faithful (.entries (value :: key :: done)) hand all)
    rintro moved' tree next ⟨boundTree, more, some, same, spelled⟩
    refine ⟨boundTree, key :: value :: more, by simp [Part.entries], by simpa using same, ?_⟩
    rw [List.map_cons, List.map_cons, Part.entries, separated_cons _ some]
    simpa using spells.append (.sign spelled)
  · intro _
    apply Reads.expect
    intro hand
    apply Reads.pure
    constructor
    · exact .plain rfl rfl fun tree member => all tree (List.mem_reverse.mp member)
    · exact ⟨[key, value], by simp [Part.entries], by simp, spells.append (.sign .nil)⟩

theorem reads_objectRule : Reads (objectRule reach) lexeme Goal.primary.Read := by
  apply Reads.expect
  intro hand
  apply Reads.eat
  · intro _ hand
    apply Reads.pure
    exact ⟨.plain rfl rfl (by simp), between?_op rfl, .sign (.sign .nil)⟩
  · intro _
    apply Reads.mono (faithful (.entries []) hand (by simp [Goal.Primed]))
    rintro moved tree next ⟨bound, more, _, rfl, spells⟩
    refine ⟨bound, between?_op rfl, ?_⟩
    simpa [pieces_op, Operation.pieces] using Spells.sign spells

theorem reads_arrayElement :
    Reads (arrayElement reach) lexeme fun moved tree next => Bound tree ∧
      Spells (part tree).optional moved ∧
      (Spells tree.pieces moved ∨ next = .punctuator .comma ∨
        lexeme = .punctuator .closeBracket) := by
  have hole (stops : lexeme = .punctuator .comma ∨ lexeme = .punctuator .closeBracket) :
      Reads (pure (lit .undefined)) lexeme fun moved tree next => Bound tree ∧
        Spells (part tree).optional moved ∧
        (Spells tree.pieces moved ∨ next = .punctuator .comma ∨
          lexeme = .punctuator .closeBracket) := by
    apply Reads.pure
    exact ⟨.leaf _, .one .omitted, .inr stops⟩
  apply Reads.at?
  · intro comma
    apply Reads.at?
    · intro _
      exact hole (.inl comma)
    · intro _
      exact hole (.inl comma)
  · intro _
    apply Reads.at?
    · intro bracket
      exact hole (.inr bracket)
    · intro _
      apply Reads.mono (faithful (.expression 0) lexeme trivial)
      rintro moved tree next ⟨bound, _, _, spells⟩
      exact ⟨bound, spells_optional spells, .inl spells⟩

theorem reads_elementsRule {done : List Branch} (bound : ∀ tree ∈ done, Bound tree)
    (first : done = [] → lexeme ≠ .punctuator .closeBracket) :
    Reads (elementsRule reach done) lexeme (Goal.elements done).Read := by
  apply Reads.bind (reads_arrayElement faithful)
  rintro moved element hand ⟨boundElement, spells, whole⟩
  have all : ∀ tree ∈ element :: done, Bound tree :=
    List.forall_mem_cons.mpr ⟨boundElement, bound⟩
  apply Reads.eat
  · intro _ hand
    apply Reads.mono (faithful (.elements (element :: done)) hand ⟨all, by simp⟩)
    rintro moved' tree next ⟨boundTree, more, some, same, spelled, _⟩
    refine ⟨boundTree, element :: more, by simp, by simpa using same, ?_, ?_⟩
    · rw [List.map_cons, separated_cons _ (by simpa using some)]
      simpa using spells.append (.sign spelled)
    · intro _ only is
      exact absurd (List.cons.inj is).2 some
  · intro other
    apply Reads.expect
    intro hand
    apply Reads.pure
    refine ⟨.plain rfl rfl fun tree member => all tree (List.mem_reverse.mp member), [element],
      by simp, by simp, spells.append (.sign .nil), ?_⟩
    intro start only is
    cases is
    rcases whole with whole | comma | bracket
    -- An only element is not left out: a bracket at once would be the end of an empty list.
    · exact whole.append (.sign .nil)
    · exact absurd comma other
    · exact absurd bracket (first start)

theorem reads_arrayRule : Reads (arrayRule reach) lexeme Goal.primary.Read := by
  apply Reads.expect
  intro hand
  apply Reads.eat
  · intro _ hand
    apply Reads.pure
    exact ⟨.plain rfl rfl (by simp), between?_op rfl, .sign (.sign .nil)⟩
  · intro open_
    apply Reads.mono (faithful (.elements []) hand ⟨by simp, fun _ => open_⟩)
    rintro moved tree next ⟨bound, more, some, rfl, spells, only⟩
    refine ⟨bound, between?_op rfl, ?_⟩
    rw [pieces_op]
    cases more with
    | nil => exact absurd rfl some
    | cons first rest =>
      cases rest with
      | nil => exact .sign (only rfl first rfl)
      | cons second rest =>
        have printed : Part.elements ((first :: second :: rest).map part) =
            separated ((first :: second :: rest).map fun tree => tree.part.optional) := by
          simp [Part.elements, Function.comp_def]
        rw [← printed] at spells
        exact .sign spells

theorem reads_functionRule : Reads (functionRule reach) lexeme Goal.primary.Read := by
  apply Reads.expectKeyword
  intro hand
  apply reads_functionName
  intro moved name hand title
  apply Reads.bind reads_parameterList
  rintro moved' params hand ⟨bound, spells⟩
  apply Reads.bind (faithful .block hand trivial)
  rintro moved'' body hand ⟨boundBody, spellsBody⟩
  apply Reads.pure
  have printed : pieces (op .functionLiteral (lit name :: params ++ [body])) =
      .word .function :: ((part (lit name)).title ++ (.sign .openParen ::
        separated (params.map (part · |>.title)) ++ [.sign .closeParen] ++ body.pieces)) := by
    simp [pieces_op, Operation.pieces, Function.comp_def]
  refine ⟨.plain rfl rfl ?_, between?_op rfl, ?_⟩
  · simp only [List.cons_append, List.mem_cons, List.mem_append, List.not_mem_nil, or_false]
    rintro tree (rfl | member | rfl)
    · exact .leaf _
    · exact bound tree member
    · exact boundBody
  · rw [printed]
    simpa using Spells.word (title.append (spells.append spellsBody))

theorem reads_constructRule : Reads (constructRule reach) lexeme Goal.primary.Read := by
  apply Reads.expectKeyword
  intro hand
  apply Reads.bind (faithful .primary hand trivial)
  rintro moved base hand ⟨bound, single, spells⟩
  apply Reads.bind (faithful (.callee base) hand ⟨bound, single⟩)
  rintro moved' callee hand ⟨boundCallee, _, more, same, spells'⟩
  have spelled : Spells callee.pieces (moved ++ moved') := same ▸ spells.append spells'
  apply Reads.eat
  · intro _ hand
    apply Reads.mono (reads_argumentList faithful (by simpa using boundCallee))
    rintro moved'' tree next ⟨below, args, rfl, spellsArgs⟩
    refine ⟨.plain rfl rfl below, between?_op rfl, ?_⟩
    -- No arguments in parentheses are printed like no parentheses.
    cases args with
    | nil =>
      cases spellsArgs with
      | cons paren rest =>
        cases paren
        cases rest
        have together : Spells (pieces (op .construct [callee])) (.keyword .new ::
            (moved ++ moved' ++ [.punctuator .openParen, .punctuator .closeParen])) :=
          .word (spelled.append (.one .parentheses))
        simpa using together
    | cons first rest =>
      have printed : pieces (op .construct ([callee].reverse ++ first :: rest)) =
          .word .new :: (callee.pieces ++ .sign .openParen ::
            (separated ((first :: rest).map pieces) ++ [.sign .closeParen])) := by
        simp [pieces_op, Operation.pieces, Part.arguments, Function.comp_def]
      rw [printed]
      simpa using Spells.word (spelled.append (.sign spellsArgs))
  · intro _
    apply Reads.pure
    have together : Spells (pieces (op .construct [callee]))
        (.keyword .new :: (moved ++ moved' ++ [])) :=
      .word (spelled.append (.one .bare))
    exact ⟨.plain rfl rfl (by simpa using boundCallee), between?_op rfl, by simpa using together⟩

theorem reads_calleeRule {base : Branch} (bound : Bound base)
    (single : base.value.between? = none) :
    Reads (calleeRule reach base) lexeme (Goal.callee base).Read := by
  have access : Reads (memberAccess reach base >>= fun tree => reach (.callee tree)) lexeme
      (Goal.callee base).Read := by
    apply reads_memberAccess faithful bound
    intro moved tree hand more boundTree none same spells
    apply Reads.mono (faithful (.callee tree) hand ⟨boundTree, none⟩)
    rintro rest last next ⟨boundLast, noneLast, more', same', spells'⟩
    exact ⟨boundLast, noneLast, more ++ more', by rw [same', same, List.append_assoc],
      spells.append spells'⟩
  apply Reads.at?
  · intro _
    apply Reads.at?
    · intro _
      exact access
    · intro _
      exact access
  · intro _
    apply Reads.at?
    · intro _
      exact access
    · intro _
      exact .pure ⟨bound, single, [], by simp, .nil⟩

theorem reads_primaryRule : Reads (primaryRule reach) lexeme Goal.primary.Read := by
  have literal (value : Value) (inside : lexeme ≠ .eof)
      (printed : value.pieces = [.token lexeme]) :
      Reads (literalRule value) lexeme Goal.primary.Read := by
    apply Reads.advance inside
    intro hand
    apply Reads.pure
    refine ⟨.leaf _, rfl, ?_⟩
    rw [show pieces (lit value) = value.pieces from rfl, printed]
    exact .one (.token lexeme)
  apply Reads.peek
  split
  case h_7 =>
    apply Reads.expectIdentifier
    intro name hand _
    apply Reads.pure
    exact ⟨.leaf _, rfl, .name .nil⟩
  case h_8 => exact reads_groupingRule faithful
  case h_9 => exact reads_objectRule faithful
  case h_10 => exact reads_arrayRule faithful
  case h_11 => exact reads_functionRule faithful
  case h_12 => exact reads_constructRule faithful
  case h_13 => exact .fail _
  -- The first six cases are the literals.
  all_goals exact literal _ (by simp) rfl

end Expressions

/-! ## Rules of statements -/

theorem flatMap_whole (trees : List Branch) :
    (trees.map part).flatMap Part.whole = trees.flatMap pieces := by
  simp [List.flatMap_map]

theorem pieces_block (trees : List Branch) :
    pieces (stmt .block trees) =
      .sign .openBrace :: (trees.flatMap pieces ++ [.sign .closeBrace]) := by
  rw [pieces_stmt, ← flatMap_whole]
  rfl

theorem reads_jumpRule {s : Statement} {k : Keyword}
    (printed : pieces (stmt s []) = [.word k, .sign .semicolon]) :
    Reads (jumpRule s) (.keyword k) Goal.statement.Read := by
  apply Reads.advance (by simp)
  intro hand
  apply Reads.expect
  intro hand
  apply Reads.pure
  refine ⟨.stmt (by simp), ?_⟩
  rw [printed]
  exact .word (.sign .nil)

section Statements

variable {reach : Reach} (faithful : reach.Faithful) {lexeme : Lexeme}
include faithful

theorem reads_blockRule : Reads (blockRule reach) lexeme Goal.block.Read := by
  apply Reads.expect
  intro hand
  apply Reads.mono (faithful (.blockRest []) hand (by simp [Goal.Primed]))
  rintro moved tree next ⟨bound, more, rfl, spells⟩
  refine ⟨bound, ?_⟩
  rw [List.reverse_nil, List.nil_append, pieces_block]
  exact .sign spells

theorem reads_blockRestRule {done : List Branch} (bound : ∀ tree ∈ done, Bound tree) :
    Reads (blockRestRule reach done) lexeme (Goal.blockRest done).Read := by
  apply Reads.at?
  · intro brace
    cases brace
    apply Reads.advance (by simp)
    intro hand
    apply Reads.pure
    constructor
    · exact .stmt fun tree member => bound tree (List.mem_reverse.mp member)
    · exact ⟨[], by simp, .sign .nil⟩
  · intro _
    apply Reads.peek
    split
    · exact .fail _
    · apply Reads.bind (faithful .statement lexeme trivial)
      rintro moved statement hand ⟨boundStatement, spells⟩
      apply Reads.mono (faithful (.blockRest (statement :: done)) hand
        (List.forall_mem_cons.mpr ⟨boundStatement, bound⟩))
      rintro moved' tree next ⟨boundTree, more, same, spells'⟩
      refine ⟨boundTree, statement :: more, by simpa using same, ?_⟩
      simpa using spells.append spells'

theorem reads_unitRule {done : List Branch} (bound : ∀ tree ∈ done, Bound tree) :
    Reads (unitRule reach done) lexeme (Goal.unit done).Read := by
  apply Reads.peek
  split
  · apply Reads.pure
    refine ⟨.stmt fun tree member => ?_, rfl, [], by simp, .nil⟩
    exact bound tree (List.mem_reverse.mp member)
  · apply Reads.bind (faithful .statement lexeme trivial)
    rintro moved statement hand ⟨boundStatement, spells⟩
    apply Reads.mono (faithful (.unit (statement :: done)) hand
      (List.forall_mem_cons.mpr ⟨boundStatement, bound⟩))
    rintro moved' tree next ⟨boundTree, ends, more, same, spells'⟩
    refine ⟨boundTree, ends, statement :: more, by simpa using same, ?_⟩
    simpa using spells.append spells'

theorem reads_condition {α : Type} {f : Branch → Parse α} {Q : List Lexeme → α → Lexeme → Prop}
    (next : ∀ moved tree hand, Bound tree →
      Spells (.sign .openParen :: (tree.pieces ++ [.sign .closeParen])) moved →
      Reads (f tree) hand fun more a last => Q (moved ++ more) a last) :
    Reads (condition reach >>= f) lexeme Q := by
  unfold condition
  simp only [bind_assoc, pure_bind]
  apply Reads.expect
  intro hand
  apply reads_anyExpression faithful
  intro moved test hand bound spells
  apply Reads.expect
  intro hand
  simpa using next _ test hand bound (.sign (spells.append (.sign .nil)))

theorem reads_ifRule (start : lexeme = .keyword .if) :
    Reads (ifRule reach) lexeme Goal.statement.Read := by
  cases start
  apply Reads.advance (by simp)
  intro hand
  apply reads_condition faithful
  intro moved test hand boundTest spells
  apply Reads.bind (faithful .statement hand trivial)
  rintro moved' consequent hand ⟨boundConsequent, spells'⟩
  apply Reads.eatKeyword
  · intro _ hand
    apply Reads.bind (faithful .statement hand trivial)
    rintro moved'' alternative hand ⟨boundAlternative, spells''⟩
    apply Reads.pure
    refine ⟨.stmt (by simpa using ⟨boundTest, boundConsequent, boundAlternative⟩), ?_⟩
    have together :=
      Spells.word (k := .if) (spells.append (spells'.append (.word (k := .else) spells'')))
    simpa [pieces_stmt, Statement.pieces] using together
  · intro _
    apply Reads.pure
    refine ⟨.stmt (by simpa using ⟨boundTest, boundConsequent⟩), ?_⟩
    have together := Spells.word (k := .if) (spells.append spells')
    simpa [pieces_stmt, Statement.pieces] using together

theorem reads_whileRule (start : lexeme = .keyword .while) :
    Reads (whileRule reach) lexeme Goal.statement.Read := by
  cases start
  apply Reads.advance (by simp)
  intro hand
  apply reads_condition faithful
  intro moved test hand boundTest spells
  apply Reads.bind (faithful .statement hand trivial)
  rintro moved' body hand ⟨boundBody, spells'⟩
  apply Reads.pure
  refine ⟨.stmt (by simpa using ⟨boundTest, boundBody⟩), ?_⟩
  have together := Spells.word (k := .while) (spells.append spells')
  simpa [pieces_stmt, Statement.pieces] using together

theorem reads_doRule (start : lexeme = .keyword .do) :
    Reads (doRule reach) lexeme Goal.statement.Read := by
  cases start
  apply Reads.advance (by simp)
  intro hand
  apply Reads.bind (faithful .statement hand trivial)
  rintro moved body hand ⟨boundBody, spells⟩
  apply Reads.expectKeyword
  intro hand
  apply reads_condition faithful
  intro moved' test hand boundTest spells'
  apply Reads.expect
  intro hand
  apply Reads.pure
  refine ⟨.stmt (by simpa using ⟨boundBody, boundTest⟩), ?_⟩
  have together := Spells.word (k := .do)
    (spells.append (.word (k := .while) (spells'.append (.sign (p := .semicolon) .nil))))
  simpa [pieces_stmt, Statement.pieces] using together

theorem reads_declarationRule :
    Reads (declarationRule reach) lexeme fun moved tree _ =>
      Bound tree ∧ Spells tree.pieces moved := by
  apply Reads.expectKeyword
  intro hand
  apply Reads.expectIdentifier
  intro name hand _
  apply Reads.eat
  · intro _ hand
    apply reads_anyExpression faithful
    intro moved first hand bound spells
    apply Reads.pure
    refine ⟨.node (fun o is => by cases is) (by simpa using bound), ?_⟩
    simpa [pieces_node, Node.pieces] using Spells.word (.name (.sign spells))
  · intro _
    apply Reads.pure
    exact ⟨.leaf _, .word (.name .nil)⟩

theorem reads_clause :
    Reads (clause reach) lexeme fun moved tree _ => Bound tree ∧ Spells tree.pieces moved := by
  apply Reads.atKeyword?
  · intro _
    exact reads_declarationRule faithful
  · intro _
    apply Reads.mono (faithful (.expression 0) lexeme trivial)
    rintro moved tree next ⟨bound, _, _, spells⟩
    exact ⟨bound, spells⟩

theorem reads_firstClause :
    Reads (firstClause reach) lexeme fun moved tree _ =>
      Bound tree ∧ Spells (part tree).optional moved := by
  apply Reads.at?
  · intro _
    exact .pure ⟨.leaf _, .one .omitted⟩
  · intro _
    apply Reads.mono (reads_clause faithful)
    rintro moved tree next ⟨bound, spells⟩
    exact ⟨bound, spells_optional spells⟩

theorem reads_optionalClause (stop : Punctuator) :
    Reads (optionalClause reach stop) lexeme fun moved tree _ =>
      Bound tree ∧ Spells (part tree).optional moved := by
  apply Reads.at?
  · intro _
    exact .pure ⟨.leaf _, .one .omitted⟩
  · intro _
    apply Reads.mono (faithful (.expression 0) lexeme trivial)
    rintro moved tree next ⟨bound, _, _, spells⟩
    exact ⟨bound, spells_optional spells⟩

theorem reads_forRule (begins : lexeme = .keyword .for) :
    Reads (forRule reach) lexeme Goal.statement.Read := by
  cases begins
  apply Reads.advance (by simp)
  intro hand
  apply Reads.expect
  intro hand
  apply Reads.bind (reads_firstClause faithful)
  rintro moved start hand ⟨boundStart, spells⟩
  apply Reads.expect
  intro hand
  apply Reads.bind (reads_optionalClause faithful _)
  rintro moved' test hand ⟨boundTest, spells'⟩
  apply Reads.expect
  intro hand
  apply Reads.bind (reads_optionalClause faithful _)
  rintro moved'' step hand ⟨boundStep, spells''⟩
  apply Reads.expect
  intro hand
  apply Reads.bind (faithful .statement hand trivial)
  rintro moved''' body hand ⟨boundBody, spells'''⟩
  apply Reads.pure
  refine ⟨.stmt (by simpa using ⟨boundStart, boundTest, boundStep, boundBody⟩), ?_⟩
  have together := Spells.word (k := .for) (.sign (p := .openParen)
    (spells.append (.sign (p := .semicolon) (spells'.append (.sign (p := .semicolon)
      (spells''.append (.sign (p := .closeParen) spells''')))))))
  simpa [pieces_stmt, Statement.pieces] using together

theorem reads_returnRule (start : lexeme = .keyword .return) :
    Reads (returnRule reach) lexeme Goal.statement.Read := by
  cases start
  apply Reads.advance (by simp)
  intro hand
  apply Reads.at?
  · intro _
    apply Reads.expect
    intro hand
    apply Reads.pure
    exact ⟨.stmt (by simp), .word (.sign .nil)⟩
  · intro _
    apply reads_anyExpression faithful
    intro moved value hand bound spells
    apply Reads.expect
    intro hand
    apply Reads.pure
    exact ⟨.stmt (by simpa using bound), .word (spells.append (.sign .nil))⟩

theorem reads_throwRule (start : lexeme = .keyword .throw) :
    Reads (throwRule reach) lexeme Goal.statement.Read := by
  cases start
  apply Reads.advance (by simp)
  intro hand
  apply reads_anyExpression faithful
  intro moved value hand bound spells
  apply Reads.expect
  intro hand
  apply Reads.pure
  exact ⟨.stmt (by simpa using bound), .word (spells.append (.sign .nil))⟩

theorem reads_expressionStatementRule :
    Reads (expressionStatementRule reach) lexeme Goal.statement.Read := by
  apply Reads.bind (reads_clause faithful)
  rintro moved inner hand ⟨bound, spells⟩
  have ended : Reads (expect .semicolon >>= fun _ => pure (stmt .expression [inner])) hand
      fun more tree next => Goal.statement.Read (moved ++ more) tree next := by
    apply Reads.expect
    intro hand
    apply Reads.pure
    exact ⟨.stmt (by simpa using bound), spells.append (.sign .nil)⟩
  have declared : Reads (pure (stmt .functionDeclaration [inner])) hand
      fun more tree next => Goal.statement.Read (moved ++ more) tree next := by
    apply Reads.pure
    exact ⟨.stmt (by simpa using bound), by simpa [pieces_stmt, Statement.pieces] using spells⟩
  apply Reads.at?
  · intro _
    exact .ite (fun _ => declared) fun _ => ended
  · intro _
    exact .ite (fun _ => declared) fun _ => ended

theorem reads_statementRule : Reads (statementRule reach) lexeme Goal.statement.Read := by
  apply Reads.peek
  split
  case h_1 => exact reads_blockRule faithful
  case h_2 => exact reads_ifRule faithful rfl
  case h_3 => exact reads_whileRule faithful rfl
  case h_4 => exact reads_doRule faithful rfl
  case h_5 => exact reads_forRule faithful rfl
  case h_6 => exact reads_returnRule faithful rfl
  case h_7 => exact reads_throwRule faithful rfl
  case h_8 => exact reads_jumpRule rfl
  case h_9 => exact reads_jumpRule rfl
  case h_10 => exact reads_expressionStatementRule faithful

end Statements

theorem reads_rule {reach : Reach} (faithful : reach.Faithful) (goal : Goal) {lexeme : Lexeme}
    (primed : goal.Primed lexeme) : Reads (goal.rule reach) lexeme goal.Read := by
  cases goal with
  | unit done => exact reads_unitRule faithful primed
  | statement => exact reads_statementRule faithful
  | block => exact reads_blockRule faithful
  | blockRest done => exact reads_blockRestRule faithful primed
  | expression least => exact reads_expressionRule faithful least
  | operators least left => exact reads_operatorsRule faithful least primed
  | operand => exact reads_operandRule faithful
  | suffixes base => exact reads_suffixesRule faithful primed.1 primed.2
  | primary => exact reads_primaryRule faithful
  | callee base => exact reads_calleeRule faithful primed.1 primed.2
  | arguments o done => exact reads_argumentsRule faithful primed
  | entries done => exact reads_entriesRule faithful primed
  | elements done => exact reads_elementsRule faithful primed.1 primed.2

/-- However deep the goals may nest, each moves over what it should. -/
theorem faithful_parse (fuel : Nat) : Reach.Faithful (Goal.parse fuel) := by
  induction fuel with
  | zero => exact fun goal lexeme _ => .throw _
  | succ fuel ih => exact fun goal lexeme primed => reads_rule ih goal primed

end StepScript
