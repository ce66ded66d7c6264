import StepScript.Machine.Step
import StepScript.Proofs.Value.References

/-! Handlers keep to objects that are there.

A local state with `n` objects `Sits` if all that its frame keeps and its store holds
refers to them. From such a state every handler leads to another one, with at least
as many objects, also where it fails. Most of what handlers are made of makes no
objects, so the number stays. The main statement, `leads_node`, is that the handler
of every node ends with a move that refers to objects which are there.
-/

set_option autoImplicit false

namespace StepScript

variable {σ α β : Type}

def NodeMap.Within (n : Nat) (kept : NodeMap Value) : Prop :=
  ∀ node, ∀ value ∈ kept.find? node, value.Within n

namespace NodeMap.Within

variable {n : Nat} {kept : NodeMap Value}

theorem empty (n : Nat) : (NodeMap.empty : NodeMap Value).Within n :=
  fun _ _ found => nomatch found

theorem mono {m : Nat} (within : kept.Within n) (le : n ≤ m) : kept.Within m :=
  fun node value found => (within node value found).mono le

theorem insert (within : kept.Within n) (node : Nat) {value : Value} (new : value.Within n) :
    (kept.insert node value).Within n := by
  intro other found same
  rw [Option.mem_def, find?_insert] at same
  split at same
  · cases same
    exact new
  · exact within other found same

theorem erase (within : kept.Within n) (node : Nat) : (kept.erase node).Within n := by
  intro other found same
  rw [Option.mem_def, find?_erase] at same
  split at same
  · cases same
  · exact within other found same

theorem getD (within : kept.Within n) (node : Nat) {value : Value} (other : value.Within n) :
    ((kept.find? node).getD value).Within n := by
  cases found : kept.find? node with
  | none => exact other
  | some value => exact within node value found

end NodeMap.Within

structure Frame.Within (n : Nat) (frame : Frame) : Prop where
  scope : frame.scope.Within n
  code : frame.code.Plain
  memo : frame.memo.Within n
  converted : frame.converted.Within n

theorem Frame.Within.mono {n m : Nat} {frame : Frame} (within : frame.Within n) (le : n ≤ m) :
    frame.Within m :=
  ⟨within.scope.mono le, within.code, within.memo.mono le, within.converted.mono le⟩

theorem Frame.Within.move {n : Nat} {frame : Frame} (within : frame.Within n)
    (current previous : Nat) :
    { frame with current := current, previous := previous }.Within n :=
  ⟨within.scope, within.code, within.memo, within.converted⟩

theorem Frame.Within.keep {n : Nat} {frame : Frame} (within : frame.Within n) (node : Nat)
    {value : Value} (new : value.Within n) : (frame.keep node value).Within n :=
  ⟨within.scope, within.code, within.memo.insert node new, within.converted⟩

theorem Frame.Within.peek {n : Nat} {frame : Frame} (within : frame.Within n) (node : Nat) :
    (frame.peek node).Within n :=
  within.memo.getD node trivial

def Move.Within (n : Nat) : Move → Prop
  | .descend _ => True
  | .finish value | .give value => value.Within n
  | .call closure args => closure.Within n ∧ ∀ arg ∈ args, arg.Within n
  | .convert _ _ closure => closure.Within n

namespace Handler

structure Sits (held : σ → Value → Prop) (base : Store σ) (n : Nat) (l : Local σ) : Prop where
  frame : l.frame.Within n
  store : Store.Follows held base n l.store

variable {held : σ → Value → Prop} {base : Store σ} {n : Nat}

/-! ## What handlers are made of -/

theorem stays_frame :
    Stays (Sits held base) n (Handler.frame : Handler σ Frame) (Frame.Within n) := by
  refine fun l sits => ⟨n, Nat.le_refl n, sits, ?_⟩
  rintro f ⟨⟩
  exact ⟨rfl, sits.frame⟩

theorem stays_code : Stays (Sits held base) n (Handler.code : Handler σ Code) Outline.Plain := by
  refine fun l sits => ⟨n, Nat.le_refl n, sits, ?_⟩
  rintro code ⟨⟩
  exact ⟨rfl, sits.frame.code⟩

theorem stays_store :
    Stays (Sits held base) n (Handler.store : Handler σ (Store σ)) (Store.Follows held base n) := by
  refine fun l sits => ⟨n, Nat.le_refl n, sits, ?_⟩
  rintro s ⟨⟩
  exact ⟨rfl, sits.store⟩

theorem stays_modifyFrame {f : Frame → Frame}
    (keeps : ∀ frame : Frame, frame.Within n → (f frame).Within n) :
    Stays (Sits held base) n (modifyFrame f : Handler σ Unit) fun _ => True :=
  .modify fun l sits => ⟨keeps l.frame sits.frame, sits.store⟩

theorem leads_setStore {m : Nat} {s : Store σ} (le : n ≤ m)
    (follows : Store.Follows held base m s) :
    Leads (Sits held base) n (setStore s) fun k _ => k = m :=
  fun _ sits => ⟨m, le, ⟨sits.frame.mono le, follows⟩, fun _ _ => rfl⟩

theorem stays_setStore {s : Store σ} (follows : Store.Follows held base n s) :
    Stays (Sits held base) n (setStore s) fun _ => True :=
  (leads_setStore (Nat.le_refl n) follows).mono fun _ _ _ same => ⟨same, trivial⟩

theorem stays_keep (node : Nat) {value : Value} (within : value.Within n) :
    Stays (Sits held base) n (modifyFrame (·.keep node value) : Handler σ Unit) fun _ => True :=
  stays_modifyFrame fun _ sits => sits.keep node within

theorem stays_discard (node : Nat) :
    Stays (Sits held base) n (modifyFrame (·.discard node) : Handler σ Unit) fun _ => True :=
  stays_modifyFrame fun _ sits => ⟨sits.scope, sits.code, sits.memo.erase node, sits.converted⟩

theorem stays_discardConverted (node : Nat) :
    Stays (Sits held base) n (modifyFrame (·.discardConverted node) : Handler σ Unit)
      fun _ => True :=
  stays_modifyFrame fun _ sits => ⟨sits.scope, sits.code, sits.memo, sits.converted.erase node⟩

theorem leads_act {computation : Act σ α} {Q : Nat → α → Prop}
    (leads : Leads (Store.Follows held base) n computation Q) :
    Leads (Sits held base) n (act computation) Q := by
  refine .after stays_store fun s before => ?_
  obtain ⟨m, le, after, result⟩ := leads s before
  refine .bind (leads_setStore le after) ?_
  rintro k - - rfl
  split
  case h_1 value answer => exact .pure (result value answer)
  case h_2 => exact .throw _

theorem stays_take (node : Nat) :
    Stays (Sits held base) n (take node : Handler σ Value) (Value.Within n) :=
  .bind stays_frame fun _ within => .bind (stays_discard node) fun _ _ => .pure (within.peek node)

theorem stays_takeConverted (node : Nat) :
    Stays (Sits held base) n (takeConverted node : Handler σ Value) (Value.Within n) :=
  .bind (stays_take node) fun _ value => .bind stays_frame fun _ within =>
    .bind (stays_discardConverted node) fun _ _ => .pure (within.converted.getD node value)

theorem stays_ofExcept (result : Except EvalError α) :
    Stays (Sits held base) n (ofExcept result : Handler σ α) fun _ => True := by
  cases result with
  | ok a => exact .pure trivial
  | error e => exact .throw e

theorem stays_visit (node : Nat) :
    Stays (Sits held base) n (visit node : Handler σ Visit) fun _ => True :=
  .bind stays_frame fun _ _ => stays_ofExcept _

theorem stays_visitFolding (node : Nat) :
    Stays (Sits held base) n (visitFolding node : Handler σ (Option Visit)) fun _ => True :=
  .bind stays_frame fun _ _ => stays_ofExcept _

theorem stays_kindName (node : Nat) :
    Stays (Sits held base) n (kindName node : Handler σ String) fun _ => True :=
  .bind stays_code fun _ _ => .pure trivial

theorem stays_breach {Q : α → Prop} (node : Nat) (breach : String → Breach) :
    Stays (Sits held base) n (do throw (.breach (breach (← kindName node))) : Handler σ α) Q :=
  .bind (stays_kindName node) fun _ _ => .throw _

theorem stays_requiredChild (node position : Nat) :
    Stays (Sits held base) n (requiredChild node position : Handler σ Nat) fun _ => True := by
  refine .bind stays_code fun code _ => ?_
  split
  case h_1 => exact .pure trivial
  case h_2 => exact stays_breach node _

theorem stays_closure (id : Nat) :
    Stays (Sits held base) n (closure id : Handler σ Closure) (Closure.Within n) :=
  .bind stays_store fun _ follows => .pure (follows.closure id)

theorem stays_runHooks (operands : List (Nat × Value)) (conversion : Conversion) :
    Stays (Sits held base) n (runHooks operands conversion : Handler σ (Option Move)) fun hook =>
      ∀ move ∈ hook, move.Within n := by
  refine .bind stays_frame fun _ _ => .bind stays_store fun _ _ => ?_
  split
  case h_1 operand id pending =>
    refine .bind (stays_closure id) fun closure within => .pure ?_
    rintro move ⟨⟩
    exact within
  case h_2 => exact .pure nofun

theorem stays_bind (name : String) {value : Value} (within : value.Within n) :
    Stays (Sits held base) n (Handler.bind name value : Handler σ Unit) fun _ => True := by
  refine .bind stays_store fun s follows => .bind stays_frame fun f _ => ?_
  cases written : s.set f.scope name value with
  | ok s' => exact stays_setStore (follows.set within written)
  | error e => exact .throw _

theorem stays_takeAll (nodes : List Nat) :
    Stays (Sits held base) n (takeAll nodes : Handler σ (List Value)) fun values =>
      ∀ value ∈ values, value.Within n := by
  induction nodes with
  | nil => exact .pure (List.forall_mem_nil _)
  | cons node rest ih =>
    exact .bind (stays_take node) fun _ first => .bind ih fun _ others =>
      .pure (List.forall_mem_cons.mpr ⟨first, others⟩)

theorem stays_fillObject (id : Nat) : ∀ nodes : List Nat,
    Stays (Sits held base) n (fillObject id nodes : Handler σ Unit) fun _ => True
  | [] | [_] => .pure trivial
  | key :: value :: rest => by
    refine .bind stays_store fun _ _ => .bind (stays_take key) fun _ _ => ?_
    refine .bind (stays_take value) fun content within => .bind stays_store fun s follows => ?_
    exact .bind (stays_setStore (follows.insert id _ within)) fun _ _ => stays_fillObject id rest

theorem stays_takeOperand (operand : Option Nat) :
    Stays (Sits held base) n (takeOperand operand : Handler σ Value) (Value.Within n) := by
  cases operand with
  | some operand => exact stays_takeConverted operand
  | none => exact .pure trivial

theorem stays_peekTarget (target : Nat) :
    Stays (Sits held base) n (peekTarget target : Handler σ Value) fun _ => True := by
  refine .bind stays_code fun code _ => ?_
  split
  case h_1 => exact .bind stays_store fun _ _ => .bind stays_frame fun _ _ => .pure trivial
  case h_2 =>
    refine .bind stays_frame fun _ _ => .bind (stays_requiredChild target 0) fun _ _ => ?_
    refine .bind stays_frame fun _ _ => .bind (stays_requiredChild target 1) fun _ _ => ?_
    exact .bind stays_store fun _ _ => .pure trivial
  case h_3 => exact .pure trivial

theorem stays_resolveTarget (target : Nat) :
    Stays (Sits held base) n (resolveTarget target : Handler σ Slot) fun _ => True := by
  refine .bind stays_code fun code _ => ?_
  split
  case h_1 =>
    refine .bind stays_frame fun _ _ => ?_
    split
    · exact .bind stays_store fun _ _ => .pure trivial
    · exact .throw _
  case h_2 =>
    refine .bind (stays_discard target) fun _ _ => ?_
    refine .bind (stays_requiredChild target 0) fun _ _ => .bind (stays_take _) fun _ _ => ?_
    refine .bind stays_store fun _ _ => ?_
    refine .bind (stays_requiredChild target 1) fun _ _ => .bind (stays_take _) fun _ _ => ?_
    split
    · exact .pure trivial
    · exact .bind stays_store fun _ _ => .throw _
  case h_3 | h_4 => exact .throw _
  case h_5 => exact stays_breach target _

theorem stays_nextChild (node : Nat) :
    Stays (Sits held base) n (nextChild node : Handler σ (Option Nat)) fun _ => True := by
  refine .bind (stays_visit node) fun met _ => ?_
  cases met with
  | enter => exact .bind stays_code fun _ _ => .pure trivial
  | resume child => exact .bind stays_code fun _ _ => .pure trivial

theorem stays_nextPart (node target : Nat) (operand : Option Nat) :
    Stays (Sits held base) n (nextPart node target operand : Handler σ (Option Nat))
      fun _ => True := by
  refine .bind (stays_visitFolding node) fun met _ => ?_
  split
  case h_1 => exact .bind stays_code fun _ _ => .ite (.pure trivial) (.pure trivial)
  case h_2 | h_3 => exact .pure trivial

theorem stays_parameterNames (params : List Nat) :
    Stays (Sits held base) n (parameterNames params : Handler σ (List String)) fun _ => True := by
  induction params with
  | nil => exact .pure trivial
  | cons param rest ih =>
    refine .bind stays_code fun code _ => ?_
    split
    case h_1 => exact .bind ih fun _ _ => .pure trivial
    case h_2 => exact stays_breach param _

theorem stays_checkBody (body : Nat) :
    Stays (Sits held base) n (checkBody body : Handler σ Unit) fun _ => True :=
  .bind stays_code fun _ _ => .ite (.pure trivial) (stays_breach body _)

/-! ## Statements -/

theorem stays_nextStatement (node : Nat) :
    Stays (Sits held base) n (nextStatement node : Handler σ (Option Nat)) fun _ => True := by
  refine .bind (stays_visit node) fun met _ => ?_
  cases met with
  | enter => exact .bind stays_code fun _ _ => .pure trivial
  | resume statement =>
    refine .bind (stays_take statement) fun value within => ?_
    exact .bind (stays_keep node within) fun _ _ => .bind stays_code fun _ _ => .pure trivial

theorem stays_endSequence (node : Nat) :
    Stays (Sits held base) n (endSequence node : Handler σ Move) (Move.Within n) := by
  refine .bind (stays_take node) fun value within => .bind stays_code fun code _ => ?_
  refine .ite (.pure within) (.bind stays_frame fun f _ => ?_)
  split
  case h_1 => exact .pure within
  case h_2 | h_3 => exact .pure trivial

theorem stays_sequence (node : Nat) :
    Stays (Sits held base) n (sequence node : Handler σ Move) (Move.Within n) := by
  refine .bind (stays_nextStatement node) fun next _ => ?_
  cases next with
  | some statement => exact .pure trivial
  | none => exact stays_endSequence node

theorem stays_passThrough (node : Nat) :
    Stays (Sits held base) n (passThrough node : Handler σ Move) (Move.Within n) := by
  refine .bind (stays_visit node) fun met _ => ?_
  cases met with
  | enter =>
    refine .bind stays_code fun code _ => ?_
    split
    · exact .pure trivial
    · exact .pure trivial
  | resume child => exact .bind (stays_take child) fun _ within => .pure within

theorem stays_returnValue (node : Nat) :
    Stays (Sits held base) n (returnValue node : Handler σ Move) (Move.Within n) := by
  refine .bind (stays_visit node) fun met _ => ?_
  cases met with
  | enter =>
    refine .bind stays_code fun code _ => ?_
    split
    · exact .pure trivial
    · exact .pure trivial
  | resume child => exact .bind (stays_take child) fun _ within => .pure within

theorem stays_bindFunction {value : Value} (within : value.Within n) :
    Stays (Sits held base) n (bindFunction value : Handler σ Unit) fun _ => True := by
  refine .bind stays_store fun s _ => ?_
  split
  · exact stays_bind _ within
  · exact .pure trivial

theorem stays_functionDeclaration (node : Nat) :
    Stays (Sits held base) n (functionDeclaration node : Handler σ Move) (Move.Within n) := by
  refine .bind (stays_visit node) fun met _ => ?_
  cases met with
  | enter => exact .bind (stays_requiredChild node 0) fun _ _ => .pure trivial
  | resume literal =>
    exact .bind (stays_take literal) fun _ within =>
      .bind (stays_bindFunction within) fun _ _ => .pure within

theorem stays_declaration (node : Nat) (name : String) :
    Stays (Sits held base) n (declaration node name : Handler σ Move) (Move.Within n) := by
  refine .bind (stays_visit node) fun met _ => ?_
  cases met with
  | enter =>
    refine .bind stays_code fun code _ => ?_
    split
    case h_1 => exact .pure trivial
    case h_2 =>
      have nothing : Value.Within n .undefined := trivial
      exact .bind (stays_bind name nothing) fun _ _ => .pure nothing
  | resume first =>
    exact .bind (stays_take first) fun _ within =>
      .bind (stays_bind name within) fun _ _ => .pure within

/-! ## Expressions that call no functions -/

theorem stays_functionLiteral (node : Nat) :
    Stays (Sits held base) n (functionLiteral node : Handler σ Move) (Move.Within n) := by
  refine .bind stays_code fun code _ => ?_
  dsimp only
  split
  case h_1 => exact .throw _
  case h_2 body last =>
    refine .bind (stays_checkBody body) fun _ _ => .bind stays_code fun _ _ => ?_
    -- A body is cut out of plain code, and its scope is that of the frame.
    refine .bind (stays_parameterNames _) fun params _ => .bind stays_code fun code plain => ?_
    refine .bind stays_frame fun f within => .bind stays_store fun s follows => ?_
    have closure (name : Option String) :
        Closure.Within n ⟨name, params, code.subtree body, f.scope⟩ :=
      ⟨within.scope, plain.subtree body⟩
    exact .bind (stays_setStore (follows.newClosure (closure _))) fun _ _ => .pure trivial

theorem stays_readMember (base' key : Nat) :
    Stays (Sits held base) n (readMember base' key : Handler σ Move) (Move.Within n) := by
  refine .bind (stays_take base') fun object _ => .bind stays_store fun _ _ => ?_
  refine .bind (stays_take key) fun _ _ => .bind stays_store fun s follows => ?_
  split
  case h_1 value s' read =>
    obtain ⟨within, after⟩ := follows.index read
    exact .bind (stays_setStore after) fun _ _ => .pure within
  case h_2 => exact .bind stays_store fun _ _ => .throw _

theorem stays_memberAccess (node : Nat) :
    Stays (Sits held base) n (memberAccess node : Handler σ Move) (Move.Within n) := by
  refine .bind (stays_requiredChild node 0) fun first _ => ?_
  refine .bind (stays_requiredChild node 1) fun key _ => .bind (stays_visit node) fun met _ => ?_
  cases met with
  | enter => exact .pure trivial
  | resume child =>
    refine .ite (.pure trivial) (.bind stays_code fun code _ => ?_)
    exact .ite (.pure trivial) (stays_readMember first key)

theorem stays_nameUse (name : String) :
    Stays (Sits held base) n (nameUse name : Handler σ Move) (Move.Within n) := by
  refine .bind stays_store fun s follows => .bind stays_frame fun f _ => ?_
  split
  case h_1 value s' read =>
    obtain ⟨within, after⟩ := follows.index read
    exact .bind (stays_setStore after) fun _ _ => .pure within
  case h_2 => exact .throw _

theorem leads_objectLiteral (node : Nat) :
    Leads (Sits held base) n (objectLiteral node : Handler σ Move) Move.Within := by
  refine .after (stays_nextChild node) fun next _ => ?_
  cases next with
  | some child => exact .pure trivial
  | none =>
    -- The one node that makes an object itself.
    refine .after stays_store fun s follows => ?_
    have empty : Object.Within n ⟨.null, []⟩ := ⟨trivial, List.forall_mem_nil _⟩
    refine .bind (leads_setStore (Nat.le_succ n) (follows.newObject empty)) ?_
    rintro m - - rfl
    exact .after stays_code fun code _ => .after (stays_fillObject _ _) fun _ _ =>
      .pure follows.size_lt

/-! ## Nodes that may call functions -/

section Calls

variable {host : Host σ} (faithful : host.Faithful held)
include faithful

theorem leads_toBoolean (value : Value) :
    Leads (Sits held base) n (act (host.toBoolean value)) fun _ _ => True :=
  leads_act (Host.leads_toBoolean (faithful.hooks base) value)

theorem leads_takeCondition (condition : Nat) :
    Leads (Sits held base) n (takeCondition host condition) fun m result =>
      ∀ move, result = .error move → move.Within m := by
  refine .after stays_frame fun f _ => .after (stays_runHooks _ _) fun hook within => ?_
  cases hook with
  | some move =>
    refine .pure ?_
    rintro _ ⟨⟩
    exact within move rfl
  | none =>
    refine .after (stays_takeConverted condition) fun value _ => ?_
    exact .bind (leads_toBoolean faithful value) fun _ _ _ _ => .pure nofun

theorem leads_chooseBranch (node condition : Nat) :
    Leads (Sits held base) n (chooseBranch host node condition) Move.Within := by
  refine .bind (leads_takeCondition faithful condition) fun m _ result within => ?_
  split
  case h_1 move => exact .pure (within move rfl)
  case h_2 => exact .after (stays_requiredChild node 1) fun _ _ => .pure trivial
  case h_3 =>
    refine .after stays_code fun code _ => ?_
    split
    · exact .pure trivial
    · exact .pure trivial

theorem leads_ifElse (node : Nat) : Leads (Sits held base) n (ifElse host node) Move.Within := by
  refine .after (stays_requiredChild node 0) fun condition _ => ?_
  refine .after (stays_visitFolding node) fun met _ => ?_
  split
  case h_1 => exact .pure trivial
  case h_2 child =>
    exact .ite (leads_chooseBranch faithful node condition)
      (.after (stays_take child) fun _ within => .pure within)
  case h_3 => exact leads_chooseBranch faithful node condition

theorem leads_loopTest (condition body : Nat) :
    Leads (Sits held base) n (loopTest host condition body) Move.Within := by
  refine .bind (leads_takeCondition faithful condition) fun m _ result within => ?_
  split
  case h_1 move => exact .pure (within move rfl)
  case h_2 | h_3 => exact .pure trivial

theorem leads_whileLoop (node : Nat) :
    Leads (Sits held base) n (whileLoop host node) Move.Within := by
  refine .after (stays_requiredChild node 0) fun condition _ => ?_
  refine .after (stays_requiredChild node 1) fun body _ => ?_
  refine .after (stays_visitFolding node) fun met _ => ?_
  split
  case h_1 => exact .pure trivial
  case h_2 child =>
    exact .ite (leads_loopTest faithful condition body)
      (.after (stays_discard body) fun _ _ => .pure trivial)
  case h_3 => exact leads_loopTest faithful condition body

theorem leads_doLoop (node : Nat) : Leads (Sits held base) n (doLoop host node) Move.Within := by
  refine .after (stays_requiredChild node 0) fun body _ => ?_
  refine .after (stays_requiredChild node 1) fun condition _ => ?_
  refine .after (stays_visitFolding node) fun met _ => ?_
  split
  case h_1 => exact .pure trivial
  case h_2 child =>
    exact .ite (.after (stays_discard body) fun _ _ => .pure trivial)
      (leads_loopTest faithful condition body)
  case h_3 => exact leads_loopTest faithful condition body

theorem leads_statement (node : Nat) (s : Statement) :
    Leads (Sits held base) n (statement host node s) Move.Within := by
  cases s with
  | unit | block => exact (stays_sequence node).leads fun _ => id
  | expression => exact (stays_passThrough node).leads fun _ => id
  | ifElse => exact leads_ifElse faithful node
  | whileLoop => exact leads_whileLoop faithful node
  | doLoop => exact leads_doLoop faithful node
  | ret => exact (stays_returnValue node).leads fun _ => id
  | functionDeclaration => exact (stays_functionDeclaration node).leads fun _ => id
  | breakOut | continueOn | forLoop | throw => exact .throw _

theorem leads_foldBinary (op : BinaryOp) (left right : Nat) :
    Leads (Sits held base) n (foldBinary host op left right) Move.Within := by
  have hooks : Stays (Sits held base) n (binaryHook op left right : Handler σ (Option Move))
      fun hook => ∀ move ∈ hook, move.Within n :=
    .bind stays_frame fun _ _ => .bind stays_frame fun _ _ =>
      .ite (stays_runHooks _ _) (.pure nofun)
  refine .after hooks fun hook within => ?_
  cases hook with
  | some move => exact .pure (within move rfl)
  | none =>
    refine .after (stays_takeConverted left) fun x _ => ?_
    refine .after (stays_takeConverted right) fun y _ => ?_
    exact .bind (leads_act (Host.leads_binary (faithful.hooks base) op x y))
      fun m _ value none => .pure (none.mono (Nat.zero_le m))

theorem leads_binary (node : Nat) (op : BinaryOp) :
    Leads (Sits held base) n (binary host node op) Move.Within := by
  refine .after (stays_requiredChild node 0) fun left _ => ?_
  refine .after (stays_requiredChild node 1) fun right _ => ?_
  refine .after (stays_visitFolding node) fun met _ => ?_
  split
  case h_1 => exact .pure trivial
  case h_2 child => exact .ite (.pure trivial) (leads_foldBinary faithful op left right)
  case h_3 => exact leads_foldBinary faithful op left right

theorem leads_foldUnary (op : UnaryOp) (operand : Nat) :
    Leads (Sits held base) n (foldUnary host op operand) Move.Within := by
  have hooks : Stays (Sits held base) n (unaryHook op operand : Handler σ (Option Move))
      fun hook => ∀ move ∈ hook, move.Within n := by
    unfold unaryHook
    split
    · exact .bind stays_frame fun _ _ => stays_runHooks _ _
    · exact .pure nofun
  refine .after hooks fun hook within => ?_
  cases hook with
  | some move => exact .pure (within move rfl)
  | none =>
    refine .after (stays_takeConverted operand) fun value _ => ?_
    exact .bind (leads_act (Host.leads_unary (faithful.hooks base) op value))
      fun m _ value none => .pure (none.mono (Nat.zero_le m))

theorem leads_unary (node : Nat) (op : UnaryOp) :
    Leads (Sits held base) n (unary host node op) Move.Within := by
  refine .after (stays_requiredChild node 0) fun operand _ => ?_
  refine .after (stays_visitFolding node) fun met _ => ?_
  split
  · exact .pure trivial
  · exact leads_foldUnary faithful op operand

theorem leads_foldLogical (stopsOn : Bool) (left right : Nat) :
    Leads (Sits held base) n (foldLogical host stopsOn left right) Move.Within := by
  refine .after stays_frame fun _ _ => .after (stays_runHooks _ _) fun hook within => ?_
  cases hook with
  | some move => exact .pure (within move rfl)
  | none =>
    -- The value that may be given on is taken before its hook can make objects.
    refine .after (stays_take left) fun value kept => .after stays_frame fun _ _ => ?_
    refine .after (stays_discardConverted left) fun _ _ => ?_
    refine .bind (leads_toBoolean faithful _) fun m more truth _ => ?_
    exact .ite (.pure (kept.mono more)) (.pure trivial)

theorem leads_logical (node : Nat) (stopsOn : Bool) :
    Leads (Sits held base) n (logical host node stopsOn) Move.Within := by
  refine .after (stays_requiredChild node 0) fun left _ => ?_
  refine .after (stays_requiredChild node 1) fun right _ => ?_
  refine .after (stays_visitFolding node) fun met _ => ?_
  split
  case h_1 => exact .pure trivial
  case h_2 child =>
    exact .ite (leads_foldLogical faithful stopsOn left right)
      (.after (stays_take right) fun _ within => .pure within)
  case h_3 => exact leads_foldLogical faithful stopsOn left right

theorem leads_chooseOperand (node condition : Nat) :
    Leads (Sits held base) n (chooseOperand host node condition) Move.Within := by
  refine .bind (leads_takeCondition faithful condition) fun m _ result within => ?_
  split
  case h_1 move => exact .pure (within move rfl)
  case h_2 => exact .after (stays_requiredChild node 1) fun _ _ => .pure trivial
  case h_3 => exact .after (stays_requiredChild node 2) fun _ _ => .pure trivial

theorem leads_conditional (node : Nat) :
    Leads (Sits held base) n (conditional host node) Move.Within := by
  refine .after (stays_requiredChild node 0) fun condition _ => ?_
  refine .after (stays_visitFolding node) fun met _ => ?_
  split
  case h_1 => exact .pure trivial
  case h_2 child =>
    exact .ite (leads_chooseOperand faithful node condition)
      (.after (stays_take child) fun _ within => .pure within)
  case h_3 => exact leads_chooseOperand faithful node condition

theorem leads_foldUpdate (op : UpdateOp) (givesOld : Bool) (node target : Nat)
    (operand : Option Nat) :
    Leads (Sits held base) n (foldUpdate host op givesOld node target operand) Move.Within := by
  have hooks : Stays (Sits held base) n
      (updateHook op node target operand : Handler σ (Option Move))
      fun hook => ∀ move ∈ hook, move.Within n :=
    .ite (.pure nofun) (.bind (stays_peekTarget target) fun _ _ =>
      .bind stays_frame fun _ _ => stays_runHooks _ _)
  refine .after hooks fun hook within => ?_
  cases hook with
  | some move => exact .pure (within move rfl)
  | none =>
    refine .after (stays_takeOperand operand) fun value given => .after stays_frame fun f kept => ?_
    refine .after (stays_discardConverted node) fun _ _ => ?_
    refine .after (stays_resolveTarget target) fun slot _ => .after stays_store fun s follows => ?_
    have old : ((f.converted.find? node).getD (slot.read s)).Within n :=
      kept.converted.getD node (follows.size ▸ follows.closed.lookup_getD slot.object slot.key)
    refine .bind (leads_act (Host.leads_update (faithful.hooks base) op _ value))
      fun m more new result => ?_
    -- Hooks of the operands may have made objects, so both values are looked at from `m`.
    have within : new.Within m := by
      rcases result with rfl | none
      · exact given.mono more
      · exact none.mono (Nat.zero_le m)
    refine .after stays_store fun s after => ?_
    refine .after (stays_setStore (after.insert slot.object slot.key within)) fun _ _ => .pure ?_
    show Value.Within m (if givesOld then _ else new)
    split
    · exact old.mono more
    · exact within

theorem leads_assignment (node : Nat) (op : UpdateOp) (givesOld : Bool) :
    Leads (Sits held base) n (assignment host node op givesOld) Move.Within := by
  refine .after (stays_requiredChild node 0) fun target _ => .after stays_code fun code _ => ?_
  refine .after (stays_nextPart node target _) fun next _ => ?_
  cases next with
  | some next => exact .pure trivial
  | none => exact leads_foldUpdate faithful op givesOld node target _

theorem leads_call (node : Nat) : Leads (Sits held base) n (call host node) Move.Within := by
  refine .after (stays_requiredChild node 0) fun callee _ => ?_
  refine .after (stays_nextChild node) fun next _ => ?_
  cases next with
  | some child => exact .pure trivial
  | none =>
    refine .after stays_code fun code _ => .after (stays_takeAll _) fun args given => ?_
    refine .after (stays_take callee) fun function _ => .after stays_store fun s _ => ?_
    split
    case h_1 => exact .throw _
    case h_2 id _ =>
      exact .bind (leads_act (faithful.call id given))
        fun _ _ _ within => .pure within
    case h_3 id _ => exact .after (stays_closure id) fun _ within => .pure ⟨within, given⟩

theorem leads_construct (node : Nat) (o : Operation) :
    Leads (Sits held base) n (construct host node o) Move.Within := by
  unfold construct
  split
  case h_1 => exact (stays_passThrough node).leads fun _ => id
  case h_2 => exact leads_objectLiteral node
  case h_3 => exact (stays_functionLiteral node).leads fun _ => id
  case h_4 => exact (stays_memberAccess node).leads fun _ => id
  case h_5 => exact leads_call faithful node
  case h_6 | h_7 => exact leads_logical faithful node _
  case h_8 => exact leads_conditional faithful node
  case h_9 => exact .throw _

theorem leads_operation (node : Nat) (o : Operation) :
    Leads (Sits held base) n (operation host node o) Move.Within := by
  unfold operation
  split
  · exact leads_binary faithful node _
  · exact leads_unary faithful node _
  · exact leads_assignment faithful node _ _
  · exact leads_construct faithful node o

/-- The handler of every node keeps to objects that are there. -/
theorem leads_node (position : Nat) :
    Leads (Sits held base) n (node host position) Move.Within := by
  refine .after stays_code fun code plain => ?_
  split
  case h_1 s _ => exact leads_statement faithful position s
  case h_2 o _ => exact leads_operation faithful position o
  case h_3 name _ => exact (stays_declaration position name).leads fun _ => id
  case h_4 name _ => exact (stays_nameUse name).leads fun _ => id
  case h_5 value found => exact .pure ((plain.literal found).mono (Nat.zero_le n))
  case h_6 => exact .after stays_code fun _ _ => .throw _

end Calls

end Handler

end StepScript
