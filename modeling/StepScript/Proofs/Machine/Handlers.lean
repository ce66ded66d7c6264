import StepScript.Machine.Step
import StepScript.Proofs.Grammar.Shape
import StepScript.Proofs.Program.Layout
import StepScript.Proofs.Value.Bodies

/-! Handlers make legal moves.

A frame is `Poised` if its two cursors stand to each other as a walk over its
code leaves them: the current node was just entered, or resumed after one of its
children, or it waited for a hook. `Safe frame x Q` says that a handler which
starts there ends with a result that satisfies `Q`, or with an error that is no
breach; it has one rule for each way handlers are put together. The main
statement, `safe_node`, is that the handler of every node ends with a legal move.
-/

set_option autoImplicit false

namespace StepScript

variable {σ α β : Type}

def Node.folds : Node → Bool
  | statement s => s == .ifElse || s == .whileLoop || s == .doLoop
  | operation o =>
    o.binary?.isSome || o.unary?.isSome || o.update?.isSome || o == .logicalAnd ||
      o == .logicalOr || o == .conditional
  | _ => false

/-- How the node at `current` is met after a step at `previous`. -/
inductive Stance (code : Code) (current previous : Nat) : Prop where
  | start (root : current = 0) (first : previous = 0)
  | entered (member : current ∈ code.children previous) (inside : previous < code.size)
  | resumed (member : previous ∈ code.children current)
  | waited (same : previous = current) (below : (code.parent current).isSome = true)
    (folds : (code.get? current).all Node.folds = true)

/-- The code of a frame is that of a unit or a body, and its cursors are inside. -/
structure Frame.Poised (frame : Frame) : Prop where
  rooted : ∃ s, frame.code.Rooted s ∧ (s = .unit ∨ s = .block)
  inside : frame.current < frame.code.size
  stance : Stance frame.code frame.current frame.previous

/-- What a handler may do on a frame. -/
def Move.Legal (frame : Frame) : Move → Prop
  | .descend child => child ∈ frame.code.children frame.current
  | .finish _ => (frame.code.parent frame.current).isSome = true
  | .give _ => True
  | .call closure _ =>
    (frame.code.parent frame.current).isSome = true ∧ closure.body.Rooted .block
  | .convert _ _ closure =>
    (frame.code.parent frame.current).isSome = true ∧
      (frame.code.get? frame.current).all Node.folds = true ∧ closure.body.Rooted .block

structure Local.Steady (frame : Frame) (l : Local σ) : Prop where
  code : l.frame.code = frame.code
  current : l.frame.current = frame.current
  previous : l.frame.previous = frame.previous
  bodies : l.store.Bodies

namespace Handler

def Fine (frame : Frame) (Q : α → Prop) : Except EvalError α × Local σ → Prop
  | (.ok a, l) => l.Steady frame ∧ Q a
  | (.error e, l) => (∀ b, e ≠ .breach b) ∧ l.store.Bodies

/-- From wherever `frame` stands the handler comes to a fine end. -/
def Safe (frame : Frame) (x : Handler σ α) (Q : α → Prop) : Prop :=
  ∀ l : Local σ, l.Steady frame → Fine frame Q (x.run l)

variable {frame : Frame}

namespace Safe

theorem pure {Q : α → Prop} {a : α} (holds : Q a) : Safe frame (Pure.pure a : Handler σ α) Q :=
  fun _ steady => ⟨steady, holds⟩

theorem throw {Q : α → Prop} {e : EvalError} (harmless : ∀ b, e ≠ .breach b) :
    Safe frame (MonadExcept.throw e : Handler σ α) Q :=
  fun _ steady => ⟨harmless, steady.bodies⟩

theorem bind {x : Handler σ α} {f : α → Handler σ β} {Q : α → Prop} {R : β → Prop}
    (first : Safe frame x Q) (next : ∀ a, Q a → Safe frame (f a) R) :
    Safe frame (x >>= f) R := by
  intro l steady
  have fine := first l steady
  show Fine frame R ((ExceptT.bindCont f (x.run l).1) (x.run l).2)
  rcases result : x.run l with ⟨e | a, after⟩
  · rw [result] at fine
    exact fine
  · rw [result] at fine
    exact next a fine.2 after fine.1

theorem ite {c : Prop} [Decidable c] {x y : Handler σ α} {Q : α → Prop}
    (yes : c → Safe frame x Q) (no : ¬ c → Safe frame y Q) :
    Safe frame (if c then x else y) Q := by
  split
  · exact yes ‹c›
  · exact no ‹¬ c›

end Safe

/-! ## What handlers are made of -/

theorem safe_frame :
    Safe frame (Handler.frame : Handler σ Frame) fun f => f.code = frame.code ∧
      f.current = frame.current ∧ f.previous = frame.previous :=
  fun _ steady => ⟨steady, steady.code, steady.current, steady.previous⟩

theorem safe_code : Safe frame (Handler.code : Handler σ Code) fun code => code = frame.code :=
  fun _ steady => ⟨steady, steady.code⟩

theorem safe_store : Safe frame (Handler.store : Handler σ (Store σ)) Store.Bodies :=
  fun _ steady => ⟨steady, steady.bodies⟩

theorem safe_setStore {s : Store σ} (bodies : s.Bodies) :
    Safe frame (setStore s) fun _ => True :=
  fun _ steady => ⟨⟨steady.code, steady.current, steady.previous, bodies⟩, trivial⟩

theorem safe_fault {Q : α → Prop} (f : Fault) : Safe frame (fault f : Handler σ α) Q :=
  .throw (by simp)

theorem safe_keep (node : Nat) (value : Value) :
    Safe frame (modifyFrame (·.keep node value) : Handler σ Unit) fun _ => True :=
  fun _ steady => ⟨⟨steady.code, steady.current, steady.previous, steady.bodies⟩, trivial⟩

theorem safe_discard (node : Nat) :
    Safe frame (modifyFrame (·.discard node) : Handler σ Unit) fun _ => True :=
  fun _ steady => ⟨⟨steady.code, steady.current, steady.previous, steady.bodies⟩, trivial⟩

theorem safe_discardConverted (node : Nat) :
    Safe frame (modifyFrame (·.discardConverted node) : Handler σ Unit) fun _ => True :=
  fun _ steady => ⟨⟨steady.code, steady.current, steady.previous, steady.bodies⟩, trivial⟩

theorem ofValueError_ne_breach (e : ValueError) (b : Breach) :
    EvalError.ofValueError e ≠ .breach b := by
  cases e <;> simp [EvalError.ofValueError]

theorem safe_act {computation : Act σ α} (keeps : computation.Keeps) :
    Safe frame (act computation) fun _ => True := by
  refine .bind safe_store fun s bodies => ?_
  have kept := keeps s bodies
  refine .bind (safe_setStore kept) fun _ _ => ?_
  split
  · exact .pure trivial
  · exact .throw (ofValueError_ne_breach _)

theorem safe_take (node : Nat) : Safe frame (take node : Handler σ Value) fun _ => True :=
  .bind safe_frame fun _ _ => .bind (safe_discard node) fun _ _ => .pure trivial

theorem safe_takeConverted (node : Nat) :
    Safe frame (takeConverted node : Handler σ Value) fun _ => True :=
  .bind (safe_take node) fun _ _ => .bind safe_frame fun _ _ =>
    .bind (safe_discardConverted node) fun _ _ => .pure trivial

theorem safe_closure (id : Nat) :
    Safe frame (closure id : Handler σ Closure) fun closure => closure.body.Rooted .block :=
  .bind safe_store fun _ bodies => .pure (bodies.closure id)

theorem safe_requiredChild {node position child : Nat}
    (promised : frame.code.child node position = some child) :
    Safe frame (requiredChild node position : Handler σ Nat) fun c => c = child := by
  refine .bind safe_code fun code same => ?_
  rw [same, promised]
  exact .pure rfl

theorem safe_bind (name : String) (value : Value) :
    Safe frame (Handler.bind name value : Handler σ Unit) fun _ => True := by
  refine .bind safe_store fun s bodies => .bind safe_frame fun f _ => ?_
  cases written : s.set f.scope name value with
  | ok s' => exact safe_setStore (bodies.set written)
  | error e => exact safe_fault _

theorem safe_takeAll (nodes : List Nat) :
    Safe frame (takeAll nodes : Handler σ (List Value)) fun _ => True := by
  induction nodes with
  | nil => exact .pure trivial
  | cons node rest ih => exact .bind (safe_take node) fun _ _ => .bind ih fun _ _ => .pure trivial

theorem safe_fillObject (id : Nat) (nodes : List Nat) :
    Safe frame (fillObject id nodes : Handler σ Unit) fun _ => True := by
  fun_induction fillObject (σ := σ) id nodes with
  | case1 key value rest ih =>
    refine .bind safe_store fun _ _ => .bind (safe_take key) fun _ _ => ?_
    refine .bind (safe_take value) fun content _ => .bind safe_store fun s bodies => ?_
    exact .bind (safe_setStore (bodies.insert id _ content)) fun _ _ => ih
  | case2 => exact .pure trivial

theorem safe_takeOperand (operand : Option Nat) :
    Safe frame (takeOperand operand : Handler σ Value) fun _ => True := by
  cases operand with
  | some operand => exact safe_takeConverted operand
  | none => exact .pure trivial

def Target (code : Code) (target : Nat) : Prop :=
  (∃ name, code.get? target = some (.use name)) ∨
    code.get? target = some (.operation .member) ∧
      ∃ base key, code.child target 0 = some base ∧ code.child target 1 = some key

theorem safe_peekTarget {target : Nat} (writable : Target frame.code target) :
    Safe frame (peekTarget target : Handler σ Value) fun _ => True := by
  refine .bind safe_code fun code same => ?_
  subst same
  rcases writable with ⟨name, found⟩ | ⟨found, base, key, first, second⟩
  · rw [found]
    exact .bind safe_store fun _ _ => .bind safe_frame fun _ _ => .pure trivial
  · rw [found]
    refine .bind safe_frame fun _ _ => .bind (safe_requiredChild first) fun _ _ => ?_
    refine .bind safe_frame fun _ _ => .bind (safe_requiredChild second) fun _ _ => ?_
    exact .bind safe_store fun _ _ => .pure trivial

theorem safe_resolveTarget {target : Nat} (writable : Target frame.code target) :
    Safe frame (resolveTarget target : Handler σ Slot) fun _ => True := by
  refine .bind safe_code fun code same => ?_
  subst same
  rcases writable with ⟨name, found⟩ | ⟨found, base, key, first, second⟩
  · rw [found]
    refine .bind safe_frame fun _ _ => ?_
    split
    · exact .bind safe_store fun _ _ => .pure trivial
    · exact safe_fault _
  · rw [found]
    refine .bind (safe_discard target) fun _ _ => ?_
    refine .bind (safe_requiredChild first) fun _ _ => .bind (safe_take _) fun object _ => ?_
    refine .bind safe_store fun _ _ => .bind (safe_requiredChild second) fun _ _ => ?_
    refine .bind (safe_take _) fun _ _ => ?_
    split
    · exact .pure trivial
    · exact .bind safe_store fun _ _ => safe_fault _

theorem safe_parameterNames {params : List Nat}
    (texts : ∀ param ∈ params, ∃ text, frame.code.get? param = some (.literal (.string text))) :
    Safe frame (parameterNames params : Handler σ (List String)) fun _ => True := by
  induction params with
  | nil => exact .pure trivial
  | cons param rest ih =>
    refine .bind safe_code fun code same => ?_
    subst same
    obtain ⟨text, found⟩ := texts param List.mem_cons_self
    simp only [literalName, found]
    exact .bind (ih fun other member => texts other (List.mem_cons_of_mem param member))
      fun _ _ => .pure trivial

theorem safe_checkBody {body : Nat} (block : frame.code.get? body = some (.statement .block)) :
    Safe frame (checkBody body : Handler σ Unit) fun _ => True := by
  refine .bind safe_code fun code same => ?_
  subst same
  rw [block]
  exact .pure trivial

/-! ## Meeting a node -/

theorem visit_eq {f : Frame} (same : f.code = frame.code ∧ f.current = frame.current ∧
    f.previous = frame.previous) (node : Nat) : f.visit node = frame.visit node := by
  unfold Frame.visit
  rw [same.1, same.2.2]

theorem visitFolding_eq {f : Frame} (same : f.code = frame.code ∧ f.current = frame.current ∧
    f.previous = frame.previous) (node : Nat) : f.visitFolding node = frame.visitFolding node := by
  unfold Frame.visitFolding
  rw [visit_eq same, same.1, same.2.2]

section Node

variable (poised : frame.Poised)
include poised

theorem inside_of_child {c : Nat} (member : c ∈ frame.code.children frame.current) :
    c < frame.code.size := by
  obtain ⟨root, rooted, -⟩ := poised.rooted
  exact rooted.inside_of_mem poised.inside member

theorem parent_of_child {n c : Nat} (inside : n < frame.code.size)
    (member : c ∈ frame.code.children n) : frame.code.parent c = some n := by
  obtain ⟨root, rooted, -⟩ := poised.rooted
  exact rooted.parent_of_mem inside member

theorem firstChild_mem {c : Nat} (first : frame.code.firstChild frame.current = some c) :
    c ∈ frame.code.children frame.current := by
  rw [Outline.firstChild_eq_head? _ _ (Nat.zero_lt_of_lt poised.inside)] at first
  exact List.mem_of_mem_head? first

theorem nextSibling_mem {c next : Nat} (member : c ∈ frame.code.children frame.current)
    (follows : frame.code.nextSibling c = some next) :
    next ∈ frame.code.children frame.current := by
  obtain ⟨root, rooted, -⟩ := poised.rooted
  exact rooted.nextSibling_mem poised.inside member follows

theorem visit_cases
    (moved : ¬ (frame.previous = frame.current ∧
      (frame.code.parent frame.current).isSome = true ∧
      (frame.code.get? frame.current).all Node.folds = true)) :
    frame.visit frame.current = .ok .enter ∨
      frame.visit frame.current = .ok (.resume frame.previous) ∧
        frame.previous ∈ frame.code.children frame.current := by
  cases poised.stance with
  | start root first =>
    have none : frame.code.parent 0 = none := rfl
    simp [Frame.visit, root, first, none]
  | entered member inside => simp [Frame.visit, parent_of_child poised inside member]
  | resumed member =>
    have above := parent_of_child poised poised.inside member
    unfold Frame.visit
    rw [if_pos above]
    -- Either test leads to one of the two, so it is not asked here which of them succeeds.
    rcases Classical.em _ with entry | other
    · exact .inl (if_pos entry)
    · exact .inr ⟨if_neg other, member⟩
  | waited same below folds => exact absurd ⟨same, below, folds⟩ moved

theorem safe_visit (steady : (frame.code.get? frame.current).all Node.folds = false) :
    Safe frame (visit frame.current : Handler σ Visit) fun v =>
      ∀ c, v = .resume c → c ∈ frame.code.children frame.current := by
  refine .bind safe_frame fun f same => ?_
  rw [visit_eq same]
  rcases visit_cases poised (by simp [steady]) with entered | ⟨resumed, member⟩
  · rw [entered]
    exact .pure (by simp)
  · rw [resumed]
    exact .pure fun c found => by cases found; exact member

theorem safe_visitFolding :
    Safe frame (visitFolding frame.current : Handler σ (Option Visit)) fun v =>
      ∀ c, v = some (.resume c) → c ∈ frame.code.children frame.current := by
  refine .bind safe_frame fun f same => ?_
  rw [visitFolding_eq same]
  unfold Frame.visitFolding
  split
  · exact .pure (by simp)
  · rename_i moved
    rcases visit_cases poised fun ⟨same, below, _⟩ => moved ⟨same, below⟩ with entered | ⟨resumed, member⟩
    · rw [entered]
      exact .pure (by simp)
    · rw [resumed]
      exact .pure fun c found => by cases found; exact member

theorem safe_nextChild (steady : (frame.code.get? frame.current).all Node.folds = false) :
    Safe frame (nextChild frame.current : Handler σ (Option Nat)) fun next =>
      ∀ c, next = some c → c ∈ frame.code.children frame.current := by
  refine .bind (safe_visit poised steady) fun met member => ?_
  cases met with
  | enter =>
    refine .bind safe_code fun code same => .pure fun c first => ?_
    rw [same] at first
    exact firstChild_mem poised first
  | resume child =>
    refine .bind safe_code fun code same => .pure fun c follows => ?_
    rw [same] at follows
    exact nextSibling_mem poised (member child rfl) follows

theorem safe_nextPart {target : Nat} (promised : frame.code.child frame.current 0 = some target) :
    Safe frame (nextPart frame.current target (frame.code.child frame.current 1) :
      Handler σ (Option Nat)) fun next =>
      ∀ part, next = some part → part ∈ frame.code.children frame.current := by
  have operand : ∀ part, frame.code.child frame.current 1 = some part →
      part ∈ frame.code.children frame.current := fun part found => List.mem_of_getElem? found
  refine .bind (safe_visitFolding poised) fun met _ => ?_
  split
  case h_1 =>
    refine .bind safe_code fun code _ => .ite (fun _ => .pure fun part same => ?_) fun _ =>
      .pure operand
    cases same
    exact List.mem_of_getElem? promised
  case h_2 =>
    refine .pure fun part selected => ?_
    split at selected
    · exact operand part selected
    · cases selected
  case h_3 => exact .pure (by simp)

/-! ## Statements -/

theorem safe_nextStatement (steady : (frame.code.get? frame.current).all Node.folds = false) :
    Safe frame (nextStatement frame.current : Handler σ (Option Nat)) fun next =>
      ∀ c, next = some c → c ∈ frame.code.children frame.current := by
  refine .bind (safe_visit poised steady) fun met member => ?_
  cases met with
  | enter =>
    refine .bind safe_code fun code same => .pure fun c first => ?_
    rw [same] at first
    exact firstChild_mem poised first
  | resume child =>
    refine .bind (safe_take child) fun value _ => .bind (safe_keep _ value) fun _ _ => ?_
    refine .bind safe_code fun code same => .pure fun c follows => ?_
    rw [same] at follows
    exact nextSibling_mem poised (member child rfl) follows

omit poised in
theorem safe_endSequence :
    Safe frame (endSequence frame.current : Handler σ Move) (Move.Legal frame) := by
  refine .bind (safe_take _) fun value _ => .bind safe_code fun code same => ?_
  refine .ite (fun below => .pure ?_) fun _ => .bind safe_frame fun f _ => ?_
  · rw [same] at below
    exact below
  · split
    · exact .pure trivial
    · exact .pure trivial
    · exact .pure trivial

theorem safe_sequence (steady : (frame.code.get? frame.current).all Node.folds = false) :
    Safe frame (sequence frame.current : Handler σ Move) (Move.Legal frame) := by
  refine .bind (safe_nextStatement poised steady) fun next member => ?_
  cases next with
  | some statement => exact .pure (member statement rfl)
  | none => exact safe_endSequence

theorem safe_returnValue (steady : (frame.code.get? frame.current).all Node.folds = false) :
    Safe frame (returnValue frame.current : Handler σ Move) (Move.Legal frame) := by
  refine .bind (safe_visit poised steady) fun met _ => ?_
  cases met with
  | enter =>
    refine .bind safe_code fun code same => ?_
    subst same
    split
    case h_1 child first => exact .pure (firstChild_mem poised first)
    case h_2 => exact .pure trivial
  | resume child => exact .bind (safe_take child) fun _ _ => .pure trivial

section Below

variable (below : (frame.code.parent frame.current).isSome = true)
include below

theorem safe_passThrough (steady : (frame.code.get? frame.current).all Node.folds = false) :
    Safe frame (passThrough frame.current : Handler σ Move) (Move.Legal frame) := by
  refine .bind (safe_visit poised steady) fun met _ => ?_
  cases met with
  | enter =>
    refine .bind safe_code fun code same => ?_
    subst same
    split
    case h_1 child first => exact .pure (firstChild_mem poised first)
    case h_2 => exact .pure below
  | resume child => exact .bind (safe_take child) fun _ _ => .pure below

theorem safe_functionDeclaration
    (steady : (frame.code.get? frame.current).all Node.folds = false) {literal : Nat}
    (promised : frame.code.child frame.current 0 = some literal) :
    Safe frame (functionDeclaration frame.current : Handler σ Move) (Move.Legal frame) := by
  refine .bind (safe_visit poised steady) fun met _ => ?_
  cases met with
  | enter =>
    refine .bind (safe_requiredChild promised) fun c same => .pure ?_
    rw [same]
    exact List.mem_of_getElem? promised
  | resume child =>
    refine .bind (safe_take child) fun value _ => ?_
    have bound : Safe frame (bindFunction value : Handler σ Unit) fun _ => True := by
      refine .bind safe_store fun s _ => ?_
      split
      · exact safe_bind _ _
      · exact .pure trivial
    exact .bind bound fun _ _ => .pure below

theorem safe_declaration (steady : (frame.code.get? frame.current).all Node.folds = false)
    (name : String) :
    Safe frame (declaration frame.current name : Handler σ Move) (Move.Legal frame) := by
  refine .bind (safe_visit poised steady) fun met _ => ?_
  cases met with
  | enter =>
    refine .bind safe_code fun code same => ?_
    subst same
    split
    case h_1 child first => exact .pure (firstChild_mem poised first)
    case h_2 => exact .bind (safe_bind name _) fun _ _ => .pure below
  | resume child =>
    exact .bind (safe_take child) fun value _ => .bind (safe_bind name value) fun _ _ => .pure below

/-! ## Nodes that may wait for hooks -/

section Folding

omit poised

variable (folds : (frame.code.get? frame.current).all Node.folds = true)
include folds

theorem safe_runHooks (operands : List (Nat × Value)) (conversion : Conversion) :
    Safe frame (runHooks operands conversion : Handler σ (Option Move)) fun hook =>
      ∀ move, hook = some move → move.Legal frame := by
  refine .bind safe_frame fun f _ => .bind safe_store fun s _ => ?_
  split
  case h_1 operand id pending =>
    refine .bind (safe_closure id) fun closure rooted => .pure fun move same => ?_
    cases same
    exact ⟨below, folds, rooted⟩
  case h_2 => exact .pure (by simp)

theorem safe_updateHook (op : UpdateOp) {target : Nat} (writable : Target frame.code target)
    (operand : Option Nat) :
    Safe frame (updateHook op frame.current target operand : Handler σ (Option Move)) fun hook =>
      ∀ move, hook = some move → move.Legal frame := by
  refine .ite (fun _ => .pure (by simp)) fun _ => ?_
  refine .bind (safe_peekTarget writable) fun current _ => ?_
  exact .bind safe_frame fun _ _ => safe_runHooks below folds _ _

variable {host : Host σ} (keeps : host.Keeps)
include keeps

theorem safe_takeCondition (condition : Nat) :
    Safe frame (takeCondition host condition) fun result =>
      ∀ move, result = .error move → move.Legal frame := by
  refine .bind safe_frame fun f _ => .bind (safe_runHooks below folds _ _) fun hook legal => ?_
  cases hook with
  | some move => exact .pure fun other same => by cases same; exact legal move rfl
  | none =>
    refine .bind (safe_takeConverted condition) fun value _ => ?_
    exact .bind (safe_act (keeps.toBoolean value)) fun _ _ => .pure (by simp)

theorem safe_chooseBranch {consequent : Nat}
    (promised : frame.code.child frame.current 1 = some consequent) (condition : Nat) :
    Safe frame (chooseBranch host frame.current condition) (Move.Legal frame) := by
  refine .bind (safe_takeCondition below folds keeps condition) fun result legal => ?_
  split
  case h_1 move => exact .pure (legal move rfl)
  case h_2 =>
    refine .bind (safe_requiredChild promised) fun c same => .pure ?_
    rw [same]
    exact List.mem_of_getElem? promised
  case h_3 =>
    refine .bind safe_code fun code same => ?_
    subst same
    split
    case h_1 branch found => exact .pure (List.mem_of_getElem? found)
    case h_2 => exact .pure below

theorem safe_loopTest {body : Nat} (member : body ∈ frame.code.children frame.current)
    (condition : Nat) : Safe frame (loopTest host condition body) (Move.Legal frame) := by
  refine .bind (safe_takeCondition below folds keeps condition) fun result legal => ?_
  split
  case h_1 move => exact .pure (legal move rfl)
  case h_2 => exact .pure member
  case h_3 => exact .pure below

theorem safe_foldBinary (op : BinaryOp) (left right : Nat) :
    Safe frame (foldBinary host op left right) (Move.Legal frame) := by
  have hook : Safe frame (binaryHook op left right : Handler σ (Option Move)) fun hook =>
      ∀ move, hook = some move → move.Legal frame := by
    refine .bind safe_frame fun _ _ => .bind safe_frame fun _ _ => ?_
    exact .ite (fun _ => safe_runHooks below folds _ _) fun _ => .pure (by simp)
  refine .bind hook fun hook legal => ?_
  cases hook with
  | some move => exact .pure (legal move rfl)
  | none =>
    refine .bind (safe_takeConverted left) fun x _ => .bind (safe_takeConverted right) fun y _ => ?_
    exact .bind (safe_act (keeps.binary op x y)) fun _ _ => .pure below

theorem safe_foldUnary (op : UnaryOp) (operand : Nat) :
    Safe frame (foldUnary host op operand) (Move.Legal frame) := by
  have hook : Safe frame (unaryHook op operand : Handler σ (Option Move)) fun hook =>
      ∀ move, hook = some move → move.Legal frame := by
    unfold unaryHook
    split
    · exact .bind safe_frame fun _ _ => safe_runHooks below folds _ _
    · exact .pure (by simp)
  refine .bind hook fun hook legal => ?_
  cases hook with
  | some move => exact .pure (legal move rfl)
  | none =>
    refine .bind (safe_takeConverted operand) fun value _ => ?_
    exact .bind (safe_act (keeps.unary op value)) fun _ _ => .pure below

theorem safe_foldLogical {right : Nat} (member : right ∈ frame.code.children frame.current)
    (stopsOn : Bool) (left : Nat) :
    Safe frame (foldLogical host stopsOn left right) (Move.Legal frame) := by
  refine .bind safe_frame fun _ _ => .bind (safe_runHooks below folds _ _) fun hook legal => ?_
  cases hook with
  | some move => exact .pure (legal move rfl)
  | none =>
    refine .bind (safe_take left) fun value _ => .bind safe_frame fun _ _ => ?_
    refine .bind (safe_discardConverted left) fun _ _ => ?_
    refine .bind (safe_act (keeps.toBoolean _)) fun truth _ => ?_
    exact .ite (fun _ => .pure below) fun _ => .pure member

theorem safe_chooseOperand {first second : Nat}
    (promised : frame.code.child frame.current 1 = some first)
    (alternative : frame.code.child frame.current 2 = some second) (condition : Nat) :
    Safe frame (chooseOperand host frame.current condition) (Move.Legal frame) := by
  refine .bind (safe_takeCondition below folds keeps condition) fun result legal => ?_
  split
  case h_1 move => exact .pure (legal move rfl)
  case h_2 =>
    refine .bind (safe_requiredChild promised) fun c same => .pure ?_
    rw [same]
    exact List.mem_of_getElem? promised
  case h_3 =>
    refine .bind (safe_requiredChild alternative) fun c same => .pure ?_
    rw [same]
    exact List.mem_of_getElem? alternative

theorem safe_foldUpdate (op : UpdateOp) (givesOld : Bool) {target : Nat}
    (writable : Target frame.code target) (operand : Option Nat) :
    Safe frame (foldUpdate host op givesOld frame.current target operand) (Move.Legal frame) := by
  refine .bind (safe_updateHook below folds op writable operand) fun hook legal => ?_
  cases hook with
  | some move => exact .pure (legal move rfl)
  | none =>
    refine .bind (safe_takeOperand operand) fun value _ => .bind safe_frame fun _ _ => ?_
    refine .bind (safe_discardConverted _) fun _ _ => ?_
    refine .bind (safe_resolveTarget writable) fun slot _ => .bind safe_store fun _ _ => ?_
    refine .bind (safe_act (keeps.update op _ value)) fun new _ => ?_
    refine .bind safe_store fun s bodies => ?_
    exact .bind (safe_setStore (bodies.insert slot.object slot.key new)) fun _ _ => .pure below

include poised

theorem safe_ifElse {condition consequent : Nat}
    (test : frame.code.child frame.current 0 = some condition)
    (promised : frame.code.child frame.current 1 = some consequent) :
    Safe frame (ifElse host frame.current) (Move.Legal frame) := by
  refine .bind (safe_requiredChild test) fun c same => ?_
  subst same
  refine .bind (safe_visitFolding poised) fun met _ => ?_
  split
  case h_1 => exact .pure (List.mem_of_getElem? test)
  case h_2 =>
    refine .ite (fun _ => safe_chooseBranch below folds keeps promised _) fun _ => ?_
    exact .bind (safe_take _) fun _ _ => .pure below
  case h_3 => exact safe_chooseBranch below folds keeps promised _

theorem safe_whileLoop {condition body : Nat}
    (test : frame.code.child frame.current 0 = some condition)
    (promised : frame.code.child frame.current 1 = some body) :
    Safe frame (whileLoop host frame.current) (Move.Legal frame) := by
  refine .bind (safe_requiredChild test) fun c same => ?_
  subst same
  refine .bind (safe_requiredChild promised) fun b same => ?_
  subst same
  have loop := safe_loopTest below folds keeps (List.mem_of_getElem? promised) c
  refine .bind (safe_visitFolding poised) fun met _ => ?_
  split
  case h_1 => exact .pure (List.mem_of_getElem? test)
  case h_2 =>
    refine .ite (fun _ => loop) fun _ => ?_
    exact .bind (safe_discard _) fun _ _ => .pure (List.mem_of_getElem? test)
  case h_3 => exact loop

theorem safe_doLoop {body condition : Nat}
    (promised : frame.code.child frame.current 0 = some body)
    (test : frame.code.child frame.current 1 = some condition) :
    Safe frame (doLoop host frame.current) (Move.Legal frame) := by
  refine .bind (safe_requiredChild promised) fun b same => ?_
  subst same
  refine .bind (safe_requiredChild test) fun c same => ?_
  subst same
  have loop := safe_loopTest below folds keeps (List.mem_of_getElem? promised) c
  refine .bind (safe_visitFolding poised) fun met _ => ?_
  split
  case h_1 => exact .pure (List.mem_of_getElem? promised)
  case h_2 =>
    refine .ite (fun _ => ?_) fun _ => loop
    exact .bind (safe_discard _) fun _ _ => .pure (List.mem_of_getElem? test)
  case h_3 => exact loop

theorem safe_binary (op : BinaryOp) {left right : Nat}
    (first : frame.code.child frame.current 0 = some left)
    (second : frame.code.child frame.current 1 = some right) :
    Safe frame (binary host frame.current op) (Move.Legal frame) := by
  refine .bind (safe_requiredChild first) fun l same => ?_
  subst same
  refine .bind (safe_requiredChild second) fun r same => ?_
  subst same
  refine .bind (safe_visitFolding poised) fun met _ => ?_
  split
  case h_1 => exact .pure (List.mem_of_getElem? first)
  case h_2 =>
    exact .ite (fun _ => .pure (List.mem_of_getElem? second)) fun _ =>
      safe_foldBinary below folds keeps op l r
  case h_3 => exact safe_foldBinary below folds keeps op l r

theorem safe_unary (op : UnaryOp) {operand : Nat}
    (first : frame.code.child frame.current 0 = some operand) :
    Safe frame (unary host frame.current op) (Move.Legal frame) := by
  refine .bind (safe_requiredChild first) fun c same => ?_
  subst same
  refine .bind (safe_visitFolding poised) fun met _ => ?_
  split
  case h_1 => exact .pure (List.mem_of_getElem? first)
  case h_2 => exact safe_foldUnary below folds keeps op c

theorem safe_logical (stopsOn : Bool) {left right : Nat}
    (first : frame.code.child frame.current 0 = some left)
    (second : frame.code.child frame.current 1 = some right) :
    Safe frame (logical host frame.current stopsOn) (Move.Legal frame) := by
  refine .bind (safe_requiredChild first) fun l same => ?_
  subst same
  refine .bind (safe_requiredChild second) fun r same => ?_
  subst same
  have decide := safe_foldLogical below folds keeps (List.mem_of_getElem? second) stopsOn l
  refine .bind (safe_visitFolding poised) fun met _ => ?_
  split
  case h_1 => exact .pure (List.mem_of_getElem? first)
  case h_2 =>
    exact .ite (fun _ => decide) fun _ => .bind (safe_take r) fun _ _ => .pure below
  case h_3 => exact decide

theorem safe_conditional {condition first second : Nat}
    (test : frame.code.child frame.current 0 = some condition)
    (promised : frame.code.child frame.current 1 = some first)
    (alternative : frame.code.child frame.current 2 = some second) :
    Safe frame (conditional host frame.current) (Move.Legal frame) := by
  refine .bind (safe_requiredChild test) fun c same => ?_
  subst same
  have choose := safe_chooseOperand below folds keeps promised alternative c
  refine .bind (safe_visitFolding poised) fun met _ => ?_
  split
  case h_1 => exact .pure (List.mem_of_getElem? test)
  case h_2 =>
    exact .ite (fun _ => choose) fun _ => .bind (safe_take _) fun _ _ => .pure below
  case h_3 => exact choose

theorem safe_assignment (op : UpdateOp) (givesOld : Bool) {target : Nat}
    (promised : frame.code.child frame.current 0 = some target)
    (writable : Target frame.code target) :
    Safe frame (assignment host frame.current op givesOld) (Move.Legal frame) := by
  refine .bind (safe_requiredChild promised) fun c same => ?_
  subst same
  refine .bind safe_code fun code same => ?_
  subst same
  refine .bind (safe_nextPart poised promised) fun next member => ?_
  cases next with
  | some part => exact .pure (member part rfl)
  | none => exact safe_foldUpdate below folds keeps op givesOld writable _

end Folding

/-! ## Other nodes -/

section Steady

variable (steady : (frame.code.get? frame.current).all Node.folds = false)
include steady

theorem safe_objectLiteral :
    Safe frame (objectLiteral frame.current : Handler σ Move) (Move.Legal frame) := by
  refine .bind (safe_nextChild poised steady) fun next member => ?_
  cases next with
  | some child => exact .pure (member child rfl)
  | none =>
    refine .bind safe_store fun s bodies => .bind (safe_setStore (bodies.newObject _)) fun _ _ => ?_
    exact .bind safe_code fun _ _ => .bind (safe_fillObject _ _) fun _ _ => .pure below

theorem safe_memberAccess {base key : Nat}
    (first : frame.code.child frame.current 0 = some base)
    (second : frame.code.child frame.current 1 = some key) :
    Safe frame (memberAccess frame.current : Handler σ Move) (Move.Legal frame) := by
  have read : Safe frame (readMember base key : Handler σ Move) (Move.Legal frame) := by
    refine .bind (safe_take base) fun object _ => .bind safe_store fun _ _ => ?_
    refine .bind (safe_take key) fun _ _ => .bind safe_store fun s bodies => ?_
    split
    case h_1 value s' found =>
      exact .bind (safe_setStore (bodies.index found)) fun _ _ => .pure below
    case h_2 => exact .bind safe_store fun _ _ => safe_fault _
  refine .bind (safe_requiredChild first) fun b same => ?_
  subst same
  refine .bind (safe_requiredChild second) fun k same => ?_
  subst same
  refine .bind (safe_visit poised steady) fun met _ => ?_
  cases met with
  | enter => exact .pure (List.mem_of_getElem? first)
  | resume child =>
    refine .ite (fun _ => .pure (List.mem_of_getElem? second)) fun _ => ?_
    exact .bind safe_code fun _ _ => .ite (fun _ => .pure below) fun _ => read

theorem safe_call {host : Host σ} (keeps : host.Keeps) {callee : Nat}
    (promised : frame.code.child frame.current 0 = some callee) :
    Safe frame (call host frame.current) (Move.Legal frame) := by
  refine .bind (safe_requiredChild promised) fun c same => ?_
  subst same
  refine .bind (safe_nextChild poised steady) fun next member => ?_
  cases next with
  | some child => exact .pure (member child rfl)
  | none =>
    refine .bind safe_code fun _ _ => .bind (safe_takeAll _) fun args _ => ?_
    refine .bind (safe_take c) fun function _ => .bind safe_store fun _ _ => ?_
    split
    case h_1 => exact safe_fault _
    case h_2 id _ => exact .bind (safe_act (keeps id args)) fun _ _ => .pure below
    case h_3 id _ => exact .bind (safe_closure id) fun _ rooted => .pure ⟨below, rooted⟩

end Steady

omit poised in
theorem safe_nameUse (name : String) :
    Safe frame (nameUse name : Handler σ Move) (Move.Legal frame) := by
  refine .bind safe_store fun s bodies => .bind safe_frame fun _ _ => ?_
  split
  case h_1 value s' found =>
    exact .bind (safe_setStore (bodies.index found)) fun _ _ => .pure below
  case h_2 => exact safe_fault _

theorem safe_functionLiteral {parts : List Node}
    (site : Site frame.code frame.current (.operation .functionLiteral) parts) :
    Safe frame (functionLiteral frame.current : Handler σ Move) (Move.Legal frame) := by
  obtain ⟨title, params, body, whole, texts, block⟩ := site.function
  -- The body is cut out of shaped code, so the closure has a shaped block again.
  have inside : body < frame.code.size :=
    inside_of_child poised (by rw [whole]; simp)
  have rooted : Code.Rooted .block (frame.code.subtree body) := by
    obtain ⟨root, code, -⟩ := poised.rooted
    exact code.subtree block inside
  refine .bind safe_code fun code same => ?_
  subst same
  have last : (frame.code.children frame.current).getLast? = some body := by
    rw [whole, ← List.cons_append, List.getLast?_concat]
  have header : (frame.code.children frame.current).dropLast = title :: params := by
    rw [whole, ← List.cons_append, List.dropLast_concat]
  simp only [last, header, List.tail_cons]
  refine .bind (safe_checkBody block) fun _ _ => .bind safe_code fun _ _ => ?_
  refine .bind (safe_parameterNames texts) fun names _ => .bind safe_code fun code same => ?_
  refine .bind safe_frame fun _ _ => .bind safe_store fun s bodies => ?_
  subst same
  exact .bind (safe_setStore (bodies.newClosure rooted)) fun _ _ => .pure below

end Below

/-! ## All nodes -/

theorem below_of_get? {node : Node} (found : frame.code.get? frame.current = some node)
    (inner : node ≠ .statement .unit ∧ node ≠ .statement .block) :
    (frame.code.parent frame.current).isSome = true := by
  obtain ⟨s, rooted, which⟩ := poised.rooted
  by_cases root : frame.current = 0
  · rw [root] at found
    have same := Option.some.inj (found.symm.trans rooted.get?_zero)
    rcases which with rfl | rfl
    · exact absurd same inner.1
    · exact absurd same inner.2
  · obtain ⟨parent, above, -⟩ := rooted.exists_parent poised.inside root
    rw [above]
    rfl

theorem target_of_assignable {target : Nat} {first : Node}
    (member : target ∈ frame.code.children frame.current)
    (found : frame.code.get? target = some first) (assignable : first.isAssignable = true) :
    Target frame.code target := by
  rcases Node.cases_of_isAssignable assignable with ⟨name, rfl⟩ | rfl
  · exact .inl ⟨name, found⟩
  · have inside := inside_of_child poised member
    obtain ⟨root, rooted, -⟩ := poised.rooted
    obtain ⟨node, operands, place⟩ := rooted.site inside
    cases Option.some.inj (found.symm.trans place.get?)
    -- A shaped member has both its parts.
    match operands, Operation.length_of_fits (o := .member) place.fits rfl, place with
    | [base, key], _, place =>
      obtain ⟨b, first, -⟩ := place.child (i := 0) rfl
      obtain ⟨k, second, -⟩ := place.child (i := 1) rfl
      exact .inr ⟨found, b, k, first, second⟩

variable {host : Host σ} (keeps : host.Keeps)
include keeps

theorem safe_statement {s : Statement} {parts : List Node}
    (site : Site frame.code frame.current (.statement s) parts) :
    Safe frame (statement host frame.current s) (Move.Legal frame) := by
  have below (inner : s ≠ .unit ∧ s ≠ .block) :
      (frame.code.parent frame.current).isSome = true :=
    below_of_get? poised site.get? (by simpa using inner)
  cases s with
  | unit => exact safe_sequence poised (by rw [site.get?]; rfl)
  | block => exact safe_sequence poised (by rw [site.get?]; rfl)
  | expression => exact safe_passThrough poised (below (by decide)) (by rw [site.get?]; rfl)
  | ifElse =>
    match parts, site.fits, site with
    | test :: branch :: rest, _, site =>
      obtain ⟨c, first, -⟩ := site.child (i := 0) rfl
      obtain ⟨b, second, -⟩ := site.child (i := 1) rfl
      exact safe_ifElse poised (below (by decide)) (by rw [site.get?]; rfl) keeps first second
  | whileLoop =>
    match parts, site.fits, site with
    | [test, body], _, site =>
      obtain ⟨c, first, -⟩ := site.child (i := 0) rfl
      obtain ⟨b, second, -⟩ := site.child (i := 1) rfl
      exact safe_whileLoop poised (below (by decide)) (by rw [site.get?]; rfl) keeps first second
  | doLoop =>
    match parts, site.fits, site with
    | [body, test], _, site =>
      obtain ⟨b, first, -⟩ := site.child (i := 0) rfl
      obtain ⟨c, second, -⟩ := site.child (i := 1) rfl
      exact safe_doLoop poised (below (by decide)) (by rw [site.get?]; rfl) keeps first second
  | ret => exact safe_returnValue poised (by rw [site.get?]; rfl)
  | functionDeclaration =>
    match parts, site.fits, site with
    | [literal], _, site =>
      obtain ⟨c, first, -⟩ := site.child (i := 0) rfl
      exact safe_functionDeclaration poised (below (by decide)) (by rw [site.get?]; rfl) first
  | breakOut | continueOn | forLoop | throw => exact .throw (by simp)

theorem safe_construct {o : Operation} {parts : List Node}
    (site : Site frame.code frame.current (.operation o) parts) :
    Safe frame (construct host frame.current o) (Move.Legal frame) := by
  have below := below_of_get? poised site.get? (by simp)
  have children (i : Nat) (bound : i < parts.length) :
      ∃ c, frame.code.child frame.current i = some c ∧ c ∈ frame.code.children frame.current ∧
        frame.code.get? c = some parts[i] :=
    site.child (List.getElem?_eq_getElem bound)
  unfold construct
  split
  case h_1 => exact safe_passThrough poised below (by rw [site.get?]; rfl)
  case h_2 => exact safe_objectLiteral poised below (by rw [site.get?]; rfl)
  case h_3 => exact safe_functionLiteral poised below site
  case h_4 =>
    have count := Operation.length_of_fits (o := .member) site.fits rfl
    obtain ⟨b, first, -⟩ := children 0 (by omega)
    obtain ⟨k, second, -⟩ := children 1 (by omega)
    exact safe_memberAccess poised below (by rw [site.get?]; rfl) first second
  case h_5 =>
    match parts, site.fits, children with
    | callee :: args, _, children =>
      obtain ⟨c, first, -⟩ := children 0 (by simp)
      exact safe_call poised below (by rw [site.get?]; rfl) keeps first
  case h_6 =>
    have count := Operation.length_of_fits (o := .logicalAnd) site.fits rfl
    obtain ⟨l, first, -⟩ := children 0 (by omega)
    obtain ⟨r, second, -⟩ := children 1 (by omega)
    exact safe_logical poised below (by rw [site.get?]; rfl) keeps false first second
  case h_7 =>
    have count := Operation.length_of_fits (o := .logicalOr) site.fits rfl
    obtain ⟨l, first, -⟩ := children 0 (by omega)
    obtain ⟨r, second, -⟩ := children 1 (by omega)
    exact safe_logical poised below (by rw [site.get?]; rfl) keeps true first second
  case h_8 =>
    have count := Operation.length_of_fits (o := .conditional) site.fits rfl
    obtain ⟨c, test, -⟩ := children 0 (by omega)
    obtain ⟨l, first, -⟩ := children 1 (by omega)
    obtain ⟨r, second, -⟩ := children 2 (by omega)
    exact safe_conditional poised below (by rw [site.get?]; rfl) keeps test first second
  case h_9 => exact .throw (by simp)

theorem safe_operation {o : Operation} {parts : List Node}
    (site : Site frame.code frame.current (.operation o) parts) :
    Safe frame (operation host frame.current o) (Move.Legal frame) := by
  have below := below_of_get? poised site.get? (by simp)
  have children (i : Nat) (bound : i < parts.length) :
      ∃ c, frame.code.child frame.current i = some c ∧ c ∈ frame.code.children frame.current ∧
        frame.code.get? c = some parts[i] :=
    site.child (List.getElem?_eq_getElem bound)
  cases binary : o.binary? with
  | some op =>
    have count := Operation.length_of_fits site.fits (Operation.arity?_of_binary? binary)
    obtain ⟨l, first, -⟩ := children 0 (by omega)
    obtain ⟨r, second, -⟩ := children 1 (by omega)
    rw [operation_of_binary? host binary]
    exact safe_binary poised below (by simp [site.get?, Node.folds, binary]) keeps op first second
  | none =>
  cases unary : o.unary? with
  | some op =>
    have count := Operation.length_of_fits site.fits (Operation.arity?_of_unary? unary)
    obtain ⟨c, first, -⟩ := children 0 (by omega)
    rw [operation_of_unary? host unary]
    exact safe_unary poised below (by simp [site.get?, Node.folds, unary]) keeps op first
  | none =>
  cases update : o.update? with
  | some op =>
    obtain ⟨target, rest, rfl, assignable⟩ :=
      Operation.assignable_of_fits site.fits (Operation.isAssignment_of_update? update)
    obtain ⟨c, first, member, found⟩ := children 0 (by simp)
    rw [operation_of_update? host update]
    exact safe_assignment poised below (by simp [site.get?, Node.folds, update]) keeps op _ first
      (target_of_assignable poised member found assignable)
  | none =>
    rw [operation_of_none host binary unary update]
    exact safe_construct poised keeps site

/-- The handler of every node ends with a legal move, or with an error that is no breach. -/
theorem safe_node : Safe frame (node host frame.current) (Move.Legal frame) := by
  obtain ⟨root, rooted, -⟩ := poised.rooted
  obtain ⟨node, parts, site⟩ := rooted.site poised.inside
  refine .bind safe_code fun code same => ?_
  subst same
  rw [site.get?]
  cases node with
  | statement s => exact safe_statement poised keeps site
  | operation o => exact safe_operation poised keeps site
  | declare name =>
    exact safe_declaration poised (below_of_get? poised site.get? (by simp))
      (by rw [site.get?]; rfl) name
  | use name => exact safe_nameUse (below_of_get? poised site.get? (by simp)) name
  | literal value => exact .pure (below_of_get? poised site.get? (by simp))

end Node

end Handler

end StepScript
