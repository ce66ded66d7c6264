import StepScript.Machine.Expressions
import StepScript.Proofs.Lockstep.Computations

/-! Handlers in lockstep.

A handler looks at its own node, at the children and the parent of it, and at no other part
of the code. So it does the same on two frames whose codes agree there, and on two stores
whose hosts do the same. The main statement is `alike_node`.
-/

set_option autoImplicit false

namespace StepScript

variable {σ τ α β : Type}

theorem Slot.ofBinding_withHost (s : Store σ) (h : τ) (scope : Nat) (name : String) :
    Slot.ofBinding (s.withHost h) scope name = Slot.ofBinding s scope name := by
  rw [ofBinding, ofBinding, Store.owner?_withHost]

theorem Slot.read_withHost (slot : Slot) (s : Store σ) (h : τ) :
    slot.read (s.withHost h) = slot.read s := by
  rw [read, read, Store.lookup_withHost]

/-- What the two codes have in common around `node`. -/
structure Outline.AgreeAt (code code' : Code) (node : Nat) : Prop where
  get : code'.get? node = code.get? node
  parent : code'.parent node = code.parent node
  firstChild : code'.firstChild node = code.firstChild node
  children : code'.children node = code.children node
  child (child : Nat) (member : child ∈ code.children node) :
    code'.get? child = code.get? child ∧ code'.children child = code.children child ∧
      code'.subtree child = code.subtree child
  above (parent : Nat) (below : code.parent node = some parent) :
    code'.get? parent = code.get? parent ∧ code'.firstChild parent = code.firstChild parent
  size (outside : code.get? node = none) : code'.size = code.size

theorem Outline.AgreeAt.refl (code : Code) (node : Nat) : Outline.AgreeAt code code node :=
  ⟨rfl, rfl, rfl, rfl, fun _ _ => ⟨rfl, rfl, rfl⟩, fun _ _ => ⟨rfl, rfl⟩, fun _ => rfl⟩

structure Outline.AgreeAfter (code code' : Code) (node previous : Nat) : Prop where
  parent : code'.parent previous = code.parent previous
  sibling (below : code.parent previous = some node) :
    code'.nextSibling previous = code.nextSibling previous

theorem Outline.AgreeAfter.refl (code : Code) (node previous : Nat) :
    Outline.AgreeAfter code code node previous :=
  ⟨rfl, fun _ => rfl⟩

theorem Frame.resumed_of_visit {frame : Frame} {node child : Nat}
    (met : frame.visit node = .ok (.resume child)) :
    child = frame.previous ∧ frame.code.parent frame.previous = some node := by
  simp only [Frame.visit] at met
  grind

/-- Both frames stand where `start` does, the second one in `code'`. They are equal but for the
code, and the stores are equal but for the state of the host. -/
structure Local.Alike (R : σ → τ → Prop) (start : Frame) (code' : Code) (l : Local σ)
    (l' : Local τ) : Prop where
  code : l.frame.code = start.code
  current : l.frame.current = start.current
  previous : l.frame.previous = start.previous
  frame : l'.frame = { l.frame with code := code' }
  store : l.store.Alike R l'.store

namespace Handler

abbrev Follows (R : σ → τ → Prop) (start : Frame) (code' : Code) (V : α → β → Prop)
    (x : Handler σ α) (y : Handler τ β) : Prop :=
  Alike (Local.Alike R start code') V x y

variable {R : σ → τ → Prop} {start : Frame} {code' : Code}

/-! ## What handlers are made of -/

theorem alike_frame {V : α → β → Prop} {f : Frame → Handler σ α} {g : Frame → Handler τ β}
    (next : ∀ frame : Frame, frame.code = start.code → frame.previous = start.previous →
      Follows R start code' V (f frame) (g { frame with code := code' })) :
    Follows R start code' V (frame >>= f) (frame >>= g) := by
  intro l l' states
  have following := next l.frame states.code states.previous l l' states
  rw [← states.frame] at following
  exact following

theorem alike_code {V : α → β → Prop} {f : Code → Handler σ α} {g : Code → Handler τ β}
    (next : Follows R start code' V (f start.code) (g code')) :
    Follows R start code' V (Handler.code >>= f) (Handler.code >>= g) := by
  intro l l' states
  have following := next l l' states
  have codes : l'.frame.code = code' := congrArg Frame.code states.frame
  rw [← states.code] at following
  show Paired _ V ((f l.frame.code).run l) ((g l'.frame.code).run l')
  rw [codes]
  exact following

theorem alike_store {V : α → β → Prop} {f : Store σ → Handler σ α} {g : Store τ → Handler τ β}
    (next : ∀ s h, R s.host h → Follows R start code' V (f s) (g (s.withHost h))) :
    Follows R start code' V (store >>= f) (store >>= g) := by
  intro l l' states
  obtain ⟨frame, s⟩ := l
  obtain ⟨frame', s'⟩ := l'
  have stores := states.store
  cases stores with
  | withHost related => exact next s _ related _ _ states

theorem alike_setStore {s : Store σ} {h : τ} (related : R s.host h) :
    Follows R start code' Eq (setStore s) (setStore (s.withHost h)) :=
  fun _ _ states =>
    ⟨rfl, states.code, states.current, states.previous, states.frame, .withHost related⟩

theorem alike_fault (f : Fault) :
    Follows R start code' (Eq : α → α → Prop) (fault f) (fault f) :=
  .throw _

theorem alike_keep (node : Nat) (value : Value) :
    Follows R start code' Eq (modifyFrame (·.keep node value) : Handler σ Unit)
      (modifyFrame (·.keep node value) : Handler τ Unit) :=
  fun _ _ states => ⟨rfl, states.code, states.current, states.previous, by
    simp only [states.frame, Frame.keep], states.store⟩

theorem alike_discard (node : Nat) :
    Follows R start code' Eq (modifyFrame (·.discard node) : Handler σ Unit)
      (modifyFrame (·.discard node) : Handler τ Unit) :=
  fun _ _ states => ⟨rfl, states.code, states.current, states.previous, by
    simp only [states.frame, Frame.discard], states.store⟩

theorem alike_discardConverted (node : Nat) :
    Follows R start code' Eq (modifyFrame (·.discardConverted node) : Handler σ Unit)
      (modifyFrame (·.discardConverted node) : Handler τ Unit) :=
  fun _ _ states => ⟨rfl, states.code, states.current, states.previous, by
    simp only [states.frame, Frame.discardConverted], states.store⟩

theorem alike_ofExcept (result : Except EvalError α) :
    Follows R start code' Eq (ofExcept result : Handler σ α) (ofExcept result) := by
  cases result with
  | ok value => exact .done
  | error e => exact .throw e

theorem alike_act {x : Act σ α} {y : Act τ α} (acts : Act.Alike R x y) :
    Follows R start code' Eq (act x) (act y) := by
  refine .bind (V := fun s s' => s.Alike R s') ?_ fun s s' stores => ?_
  · exact fun l l' states => ⟨states.store, states⟩
  · have paired := acts s s' stores
    generalize x.run s = result at paired ⊢
    generalize y.run s' = result' at paired ⊢
    rcases result with ⟨e | a, after⟩ <;> rcases result' with ⟨e' | b, after'⟩
    · obtain ⟨rfl, stores⟩ := paired
      cases stores with
      | withHost related => exact .andThen (alike_setStore related) fun _ => .throw _
    · exact paired.elim
    · exact paired.elim
    · obtain ⟨rfl, stores⟩ := paired
      cases stores with
      | withHost related => exact .andThen (alike_setStore related) fun _ => .done

theorem alike_take (node : Nat) :
    Follows R start code' Eq (take node : Handler σ Value) (take node) :=
  alike_frame fun _ _ _ => .andThen (alike_discard node) fun _ => .done

theorem alike_takeConverted (node : Nat) :
    Follows R start code' Eq (takeConverted node : Handler σ Value)
      (takeConverted node) :=
  .andThen (alike_take node) fun _ => alike_frame fun _ _ _ =>
    .andThen (alike_discardConverted node) fun _ => .done

theorem alike_takeAll (nodes : List Nat) :
    Follows R start code' Eq (takeAll nodes : Handler σ (List Value)) (takeAll nodes) := by
  induction nodes with
  | nil => exact .done
  | cons node rest ih => exact .andThen (alike_take node) fun _ => .andThen ih fun _ => .done

theorem alike_takeOperand (operand : Option Nat) :
    Follows R start code' Eq (takeOperand operand : Handler σ Value)
      (takeOperand operand) := by
  cases operand with
  | some operand => exact alike_takeConverted operand
  | none => exact .done

theorem alike_closure (id : Nat) :
    Follows R start code' Eq (closure id : Handler σ Closure) (closure id) :=
  alike_store fun _ _ _ => .done

theorem pendingHook?_withHost (converted : NodeMap Value) (s : Store σ) (h : τ)
    (conversion : Conversion) (operands : List (Nat × Value)) :
    pendingHook? converted (s.withHost h) conversion operands =
      pendingHook? converted s conversion operands := by
  fun_induction pendingHook? converted s conversion operands with
  | case1 => rfl
  | case2 operand value rest done ih => rw [pendingHook?, if_pos done, ih]
  | case3 operand value rest open' id found =>
    rw [pendingHook?, if_neg open', Store.scriptHook?_withHost, found]
  | case4 operand value rest open' none ih =>
    rw [pendingHook?, if_neg open', Store.scriptHook?_withHost, none, ih]

theorem alike_runHooks (operands : List (Nat × Value)) (conversion : Conversion) :
    Follows R start code' Eq (runHooks operands conversion : Handler σ (Option Move))
      (runHooks operands conversion) := by
  refine alike_frame fun frame _ _ => alike_store fun s h _ => ?_
  rw [pendingHook?_withHost]
  cases pendingHook? frame.converted s conversion operands with
  | none => exact .done
  | some hook => exact .andThen (alike_closure hook.2) fun _ => .done

theorem alike_bind (name : String) (value : Value) :
    Follows R start code' Eq (Handler.bind name value : Handler σ Unit)
      (Handler.bind name value) := by
  refine alike_store fun s h related => alike_frame fun frame _ _ => ?_
  rw [Store.set_withHost]
  cases written : s.set frame.scope name value with
  | error e => exact alike_fault _
  | ok s' => exact alike_setStore (Store.host_of_set written ▸ related)

theorem alike_bindFunction (value : Value) :
    Follows R start code' Eq (bindFunction value : Handler σ Unit)
      (bindFunction value) := by
  refine alike_store fun s h _ => ?_
  rw [Store.ownName?_withHost]
  cases s.ownName? value with
  | none => exact .done
  | some name => exact alike_bind name value

theorem alike_fillObject (id : Nat) : ∀ nodes : List Nat,
    Follows R start code' Eq (fillObject id nodes : Handler σ Unit) (fillObject id nodes)
  | key :: value :: rest => by
    refine alike_store fun s h _ => .andThen (alike_take key) fun name => ?_
    refine .andThen (alike_take value) fun content => alike_store fun s' h' related => ?_
    rw [Store.text_withHost]
    exact .andThen (alike_setStore related) fun _ => alike_fillObject id rest
  | [] => .done
  | [_] => .done

theorem alike_kindName {node : Nat} (get : code'.get? node = start.code.get? node) :
    Follows R start code' Eq (kindName node : Handler σ String) (kindName node) := by
  refine alike_code ?_
  rw [get]
  exact .done

theorem alike_requiredChild {node : Nat} (get : code'.get? node = start.code.get? node)
    (children : code'.children node = start.code.children node) (position : Nat) :
    Follows R start code' (fun c c' => c = c' ∧ c ∈ start.code.children node)
      (requiredChild node position : Handler σ Nat) (requiredChild node position) := by
  refine alike_code ?_
  rw [Outline.child, Outline.child, children]
  cases found : (start.code.children node)[position]? with
  | some child => exact .pure ⟨rfl, List.mem_of_getElem? found⟩
  | none => exact .andThen (alike_kindName get) fun _ => .throw _

section Parents

variable {node : Nat} (parent : code'.parent node = start.code.parent node)
  (before : code'.parent start.previous = start.code.parent start.previous)
include parent before

theorem alike_visit :
    Follows R start code'
      (fun v v' => v = v' ∧ ∀ child, v = .resume child →
        child = start.previous ∧ start.code.parent start.previous = some node)
      (visit node : Handler σ Visit) (visit node) := by
  refine alike_frame fun frame walks last => ?_
  have same : ({ frame with code := code' } : Frame).visit node = frame.visit node := by
    simp only [Frame.visit, parent, walks, last, before]
  rw [same]
  cases met : frame.visit node with
  | error e => exact .throw e
  | ok v =>
    refine .pure ⟨rfl, ?_⟩
    rintro child rfl
    obtain ⟨which, above⟩ := Frame.resumed_of_visit met
    rw [walks, last] at above
    exact ⟨which.trans last, above⟩

/-- The first child, or the one behind the child that has just finished. What follows may differ in
the two codes. -/
theorem alike_nextStatement {V : Option Nat → Option Nat → Prop}
    (first : V (start.code.firstChild node) (code'.firstChild node))
    (next : start.code.parent start.previous = some node →
      V (start.code.nextSibling start.previous) (code'.nextSibling start.previous)) :
    Follows R start code' V (nextStatement node : Handler σ (Option Nat))
      (nextStatement node) := by
  refine .bind (alike_visit parent before) fun v v' same => ?_
  obtain ⟨rfl, below⟩ := same
  cases v with
  | enter => exact alike_code (.pure first)
  | resume child =>
    refine .andThen (alike_take child) fun value => .andThen (alike_keep node value) fun _ => ?_
    obtain ⟨rfl, above⟩ := below child rfl
    exact alike_code (.pure (next above))

end Parents

section Node

variable {node : Nat} (agree : Outline.AgreeAt start.code code' node)
include agree

section Resumed

variable (before : Outline.AgreeAfter start.code code' node start.previous)
include before

theorem alike_visitFolding :
    Follows R start code' Eq (visitFolding node : Handler σ (Option Visit))
      (visitFolding node) := by
  refine alike_frame fun frame walks last => ?_
  have same : ({ frame with code := code' } : Frame).visitFolding node =
      frame.visitFolding node := by
    simp only [Frame.visitFolding, Frame.visit, agree.parent, walks, last, before.parent]
  rw [same]
  exact alike_ofExcept _

/-! ## Statements -/

omit before in
theorem alike_endSequence :
    Follows R start code' Eq (endSequence node : Handler σ Move) (endSequence node) := by
  refine .andThen (alike_take node) fun value => alike_code ?_
  rw [agree.parent]
  refine .ite (fun _ => .done) fun _ => alike_frame fun frame _ _ => ?_
  simp only
  cases frame.kind with
  | topLevel | function => exact .done
  | conversion operand wanted => exact .done

theorem alike_sequence :
    Follows R start code' Eq (sequence node : Handler σ Move) (sequence node) := by
  refine .andThen (alike_nextStatement agree.parent before.parent agree.firstChild.symm
    fun below => (before.sibling below).symm) fun next => ?_
  cases next with
  | some statement => exact .done
  | none => exact alike_endSequence agree

theorem alike_passThrough :
    Follows R start code' Eq (passThrough node : Handler σ Move) (passThrough node) := by
  refine .bind (alike_visit agree.parent before.parent) fun v v' same => ?_
  obtain ⟨rfl, -⟩ := same
  cases v with
  | enter =>
    refine alike_code ?_
    rw [agree.firstChild]
    cases start.code.firstChild node with
    | some child => exact .done
    | none => exact .done
  | resume child => exact .andThen (alike_take child) fun value => .done

theorem alike_returnValue :
    Follows R start code' Eq (returnValue node : Handler σ Move) (returnValue node) := by
  refine .bind (alike_visit agree.parent before.parent) fun v v' same => ?_
  obtain ⟨rfl, -⟩ := same
  cases v with
  | enter =>
    refine alike_code ?_
    rw [agree.firstChild]
    cases start.code.firstChild node with
    | some operand => exact .done
    | none => exact .done
  | resume operand => exact .andThen (alike_take operand) fun value => .done

theorem alike_functionDeclaration :
    Follows R start code' Eq (functionDeclaration node : Handler σ Move)
      (functionDeclaration node) := by
  refine .bind (alike_visit agree.parent before.parent) fun v v' same => ?_
  obtain ⟨rfl, -⟩ := same
  cases v with
  | enter =>
    refine .bind (alike_requiredChild agree.get agree.children 0) fun c c' same => ?_
    obtain ⟨rfl, -⟩ := same
    exact .done
  | resume literal =>
    exact .andThen (alike_take literal) fun value =>
      .andThen (alike_bindFunction value) fun _ => .done

theorem alike_declaration (name : String) :
    Follows R start code' Eq (declaration node name : Handler σ Move)
      (declaration node name) := by
  refine .bind (alike_visit agree.parent before.parent) fun v v' same => ?_
  obtain ⟨rfl, -⟩ := same
  cases v with
  | enter =>
    refine alike_code ?_
    rw [agree.firstChild]
    cases start.code.firstChild node with
    | some first => exact .done
    | none => exact .andThen (alike_bind name .undefined) fun _ => .done
  | resume first =>
    exact .andThen (alike_take first) fun value => .andThen (alike_bind name value) fun _ => .done

/-! ## Literals, names and members -/

theorem alike_nextChild :
    Follows R start code' Eq (nextChild node : Handler σ (Option Nat)) (nextChild node) := by
  refine .bind (alike_visit agree.parent before.parent) fun v v' same => ?_
  obtain ⟨rfl, below⟩ := same
  cases v with
  | enter =>
    refine alike_code ?_
    rw [agree.firstChild]
    exact .done
  | resume child =>
    refine alike_code ?_
    obtain ⟨rfl, above⟩ := below child rfl
    rw [before.sibling above]
    exact .done

theorem alike_objectLiteral :
    Follows R start code' Eq (objectLiteral node : Handler σ Move)
      (objectLiteral node) := by
  refine .andThen (alike_nextChild agree before) fun next => ?_
  cases next with
  | some child => exact .done
  | none =>
    refine alike_store fun s h related => ?_
    refine .andThen (alike_setStore (s := (s.newObject ⟨.null, []⟩).2) related) fun _ => ?_
    refine alike_code ?_
    rw [agree.children]
    exact .andThen (alike_fillObject _ _) fun _ => .done

omit before in
theorem alike_parameterNames {params : List Nat}
    (members : ∀ param ∈ params, param ∈ start.code.children node) :
    Follows R start code' Eq (parameterNames params : Handler σ (List String))
      (parameterNames params) := by
  induction params with
  | nil => exact .done
  | cons param rest ih =>
    obtain ⟨member, members⟩ := List.forall_mem_cons.mp members
    have same := (agree.child param member).1
    have name : literalName code' param = literalName start.code param := by
      simp only [literalName, same]
    refine alike_code ?_
    rw [name]
    cases literalName start.code param with
    | some name => exact .andThen (ih members) fun names => .done
    | none =>
      exact .andThen (alike_kindName same) fun kind => .throw _

omit before in
theorem alike_checkBody {body : Nat} (member : body ∈ start.code.children node) :
    Follows R start code' Eq (checkBody body : Handler σ Unit) (checkBody body) := by
  have same := (agree.child body member).1
  refine alike_code ?_
  rw [same]
  exact .ite (fun _ => .done) fun _ => .andThen (alike_kindName same) fun kind => .throw _

omit before in
theorem alike_functionLiteral :
    Follows R start code' Eq (functionLiteral node : Handler σ Move)
      (functionLiteral node) := by
  refine alike_code ?_
  simp only [agree.children]
  cases last : (start.code.children node).getLast? with
  | none => exact .throw _
  | some body =>
    simp only
    have member : body ∈ start.code.children node := List.mem_of_getLast? last
    have inside (child : Nat) (header : child ∈ (start.code.children node).dropLast) :
        child ∈ start.code.children node := List.dropLast_subset _ header
    have name : (start.code.children node).dropLast.head?.bind (literalName code') =
        (start.code.children node).dropLast.head?.bind (literalName start.code) := by
      cases first : (start.code.children node).dropLast.head? with
      | none => rfl
      | some child =>
        have same := (agree.child child (inside child (List.mem_of_head? first))).1
        simp only [Option.bind_some, literalName, same]
    refine .andThen (alike_checkBody agree member) fun _ => alike_code ?_
    rw [name]
    refine .andThen (alike_parameterNames agree fun param tail =>
      inside param (List.mem_of_mem_tail tail)) fun params => alike_code ?_
    rw [(agree.child body member).2.2]
    refine alike_frame fun frame _ _ => alike_store fun s h related => ?_
    exact .andThen (alike_setStore (s := (s.newClosure _).2) related) fun _ => .done

omit before in
theorem isTarget_eq : isTarget code' node = isTarget start.code node := by
  unfold isTarget
  rw [agree.parent]
  cases below : start.code.parent node with
  | none => rfl
  | some parent =>
    obtain ⟨get, firstChild⟩ := agree.above parent below
    simp only [get, firstChild]

omit agree before in
theorem alike_readMember (base key : Nat) :
    Follows R start code' Eq (readMember base key : Handler σ Move)
      (readMember base key) := by
  refine .andThen (alike_take base) fun object => alike_store fun s h _ => ?_
  refine .andThen (alike_take key) fun name => alike_store fun s' h' related => ?_
  rw [Store.text_withHost, Store.index_withHost]
  cases read : s'.index object (s.text name) with
  | error e =>
    refine alike_store fun s'' h'' _ => ?_
    rw [Store.text_withHost]
    exact alike_fault _
  | ok found =>
    exact .andThen (alike_setStore (Store.host_of_index read ▸ related)) fun _ => .done

theorem alike_memberAccess :
    Follows R start code' Eq (memberAccess node : Handler σ Move)
      (memberAccess node) := by
  refine .bind (alike_requiredChild agree.get agree.children 0) fun base base' same => ?_
  obtain ⟨rfl, -⟩ := same
  refine .bind (alike_requiredChild agree.get agree.children 1) fun key key' same => ?_
  obtain ⟨rfl, -⟩ := same
  refine .bind (alike_visit agree.parent before.parent) fun v v' same => ?_
  obtain ⟨rfl, -⟩ := same
  cases v with
  | enter => exact .done
  | resume child =>
    refine .ite (fun _ => .done) fun _ => alike_code ?_
    rw [isTarget_eq agree]
    exact .ite (fun _ => .done) fun _ => alike_readMember base key

omit agree before in
theorem alike_nameUse (name : String) :
    Follows R start code' Eq (nameUse name : Handler σ Move) (nameUse name) := by
  refine alike_store fun s h related => alike_frame fun frame _ _ => ?_
  rw [Store.index_withHost]
  cases read : s.index frame.scope name with
  | error e => exact alike_fault _
  | ok found =>
    exact .andThen (alike_setStore (Store.host_of_index read ▸ related)) fun _ => .done

/-! ## Operators -/

section Hosts

variable {host : Host σ} {host' : Host τ} (hosts : host.Alike R host')
include hosts

omit agree before in
theorem alike_takeCondition (condition : Nat) :
    Follows R start code' Eq (takeCondition host condition)
      (takeCondition host' condition) := by
  refine alike_frame fun frame _ _ => .andThen (alike_runHooks _ .toBoolean) fun hook => ?_
  cases hook with
  | some move => exact .done
  | none =>
    exact .andThen (alike_takeConverted condition) fun value =>
      .andThen (alike_act (hosts.toBoolean value)) fun _ => .done

omit before in
theorem alike_chooseBranch (condition : Nat) :
    Follows R start code' Eq (chooseBranch host node condition)
      (chooseBranch host' node condition) := by
  refine .andThen (alike_takeCondition hosts condition) fun truth => ?_
  rcases truth with move | _ | _
  · exact .done
  · refine alike_code ?_
    rw [Outline.child, Outline.child, agree.children]
    cases (start.code.children node)[2]? with
    | some branch => exact .done
    | none => exact .done
  · refine .bind (alike_requiredChild agree.get agree.children 1) fun c c' same => ?_
    obtain ⟨rfl, -⟩ := same
    exact .done

theorem alike_ifElse :
    Follows R start code' Eq (ifElse host node) (ifElse host' node) := by
  refine .bind (alike_requiredChild agree.get agree.children 0) fun condition c' same => ?_
  obtain ⟨rfl, -⟩ := same
  refine .andThen (alike_visitFolding agree before) fun met => ?_
  rcases met with _ | _ | child
  · exact alike_chooseBranch agree hosts condition
  · exact .done
  · exact .ite (fun _ => alike_chooseBranch agree hosts condition) fun _ =>
      .andThen (alike_take child) fun _ => .done

omit agree before in
theorem alike_loopTest (condition body : Nat) :
    Follows R start code' Eq (loopTest host condition body)
      (loopTest host' condition body) := by
  refine .andThen (alike_takeCondition hosts condition) fun truth => ?_
  rcases truth with move | _ | _
  · exact .done
  · exact .done
  · exact .done

theorem alike_whileLoop :
    Follows R start code' Eq (whileLoop host node) (whileLoop host' node) := by
  refine .bind (alike_requiredChild agree.get agree.children 0) fun condition c' same => ?_
  obtain ⟨rfl, -⟩ := same
  refine .bind (alike_requiredChild agree.get agree.children 1) fun body c' same => ?_
  obtain ⟨rfl, -⟩ := same
  refine .andThen (alike_visitFolding agree before) fun met => ?_
  rcases met with _ | _ | child
  · exact alike_loopTest hosts condition body
  · exact .done
  · exact .ite (fun _ => alike_loopTest hosts condition body) fun _ =>
      .andThen (alike_discard body) fun _ => .done

theorem alike_doLoop :
    Follows R start code' Eq (doLoop host node) (doLoop host' node) := by
  refine .bind (alike_requiredChild agree.get agree.children 0) fun body c' same => ?_
  obtain ⟨rfl, -⟩ := same
  refine .bind (alike_requiredChild agree.get agree.children 1) fun condition c' same => ?_
  obtain ⟨rfl, -⟩ := same
  refine .andThen (alike_visitFolding agree before) fun met => ?_
  rcases met with _ | _ | child
  · exact alike_loopTest hosts condition body
  · exact .done
  · exact .ite (fun _ => .andThen (alike_discard body) fun _ => .done) fun _ =>
      alike_loopTest hosts condition body

omit agree before hosts in
theorem alike_binaryHook (op : BinaryOp) (left right : Nat) :
    Follows R start code' Eq (binaryHook op left right : Handler σ (Option Move))
      (binaryHook op left right) :=
  alike_frame fun _ _ _ => alike_frame fun _ _ _ =>
    .ite (fun _ => alike_runHooks _ .toNumber) fun _ => .done

omit agree before in
theorem alike_foldBinary (op : BinaryOp) (left right : Nat) :
    Follows R start code' Eq (foldBinary host op left right)
      (foldBinary host' op left right) := by
  refine .andThen (alike_binaryHook op left right) fun hook => ?_
  cases hook with
  | some move => exact .done
  | none =>
    exact .andThen (alike_takeConverted left) fun x => .andThen (alike_takeConverted right) fun y =>
      .andThen (alike_act (hosts.binary op x y)) fun _ => .done

theorem alike_binary (op : BinaryOp) :
    Follows R start code' Eq (binary host node op) (binary host' node op) := by
  refine .bind (alike_requiredChild agree.get agree.children 0) fun left c' same => ?_
  obtain ⟨rfl, -⟩ := same
  refine .bind (alike_requiredChild agree.get agree.children 1) fun right c' same => ?_
  obtain ⟨rfl, -⟩ := same
  refine .andThen (alike_visitFolding agree before) fun met => ?_
  rcases met with _ | _ | child
  · exact alike_foldBinary hosts op left right
  · exact .done
  · exact .ite (fun _ => .done) fun _ => alike_foldBinary hosts op left right

omit agree before in
theorem alike_foldUnary (op : UnaryOp) (operand : Nat) :
    Follows R start code' Eq (foldUnary host op operand) (foldUnary host' op operand) := by
  refine .andThen (x := unaryHook op operand) (y := unaryHook op operand) ?_ fun hook => ?_
  · unfold unaryHook
    cases op.conversion? with
    | some conversion => exact alike_frame fun _ _ _ => alike_runHooks _ conversion
    | none => exact .done
  · cases hook with
    | some move => exact .done
    | none =>
      exact .andThen (alike_takeConverted operand) fun value =>
        .andThen (alike_act (hosts.unary op value)) fun _ => .done

theorem alike_unary (op : UnaryOp) :
    Follows R start code' Eq (unary host node op) (unary host' node op) := by
  refine .bind (alike_requiredChild agree.get agree.children 0) fun operand c' same => ?_
  obtain ⟨rfl, -⟩ := same
  refine .andThen (alike_visitFolding agree before) fun met => ?_
  rcases met with _ | _ | child
  · exact alike_foldUnary hosts op operand
  · exact .done
  · exact alike_foldUnary hosts op operand

omit agree before in
theorem alike_foldLogical (stopsOn : Bool) (left right : Nat) :
    Follows R start code' Eq (foldLogical host stopsOn left right)
      (foldLogical host' stopsOn left right) := by
  refine alike_frame fun frame _ _ => .andThen (alike_runHooks _ .toBoolean) fun hook => ?_
  cases hook with
  | some move => exact .done
  | none =>
    refine .andThen (alike_take left) fun value => alike_frame fun frame _ _ => ?_
    refine .andThen (alike_discardConverted left) fun _ => ?_
    exact .andThen (alike_act (hosts.toBoolean _)) fun truth => .ite (fun _ => .done) fun _ => .done

theorem alike_logical (stopsOn : Bool) :
    Follows R start code' Eq (logical host node stopsOn) (logical host' node stopsOn) := by
  refine .bind (alike_requiredChild agree.get agree.children 0) fun left c' same => ?_
  obtain ⟨rfl, -⟩ := same
  refine .bind (alike_requiredChild agree.get agree.children 1) fun right c' same => ?_
  obtain ⟨rfl, -⟩ := same
  refine .andThen (alike_visitFolding agree before) fun met => ?_
  rcases met with _ | _ | child
  · exact alike_foldLogical hosts stopsOn left right
  · exact .done
  · exact .ite (fun _ => alike_foldLogical hosts stopsOn left right) fun _ =>
      .andThen (alike_take right) fun _ => .done

omit before in
theorem alike_chooseOperand (condition : Nat) :
    Follows R start code' Eq (chooseOperand host node condition)
      (chooseOperand host' node condition) := by
  refine .andThen (alike_takeCondition hosts condition) fun truth => ?_
  rcases truth with move | _ | _
  · exact .done
  · refine .bind (alike_requiredChild agree.get agree.children 2) fun c c' same => ?_
    obtain ⟨rfl, -⟩ := same
    exact .done
  · refine .bind (alike_requiredChild agree.get agree.children 1) fun c c' same => ?_
    obtain ⟨rfl, -⟩ := same
    exact .done

theorem alike_conditional :
    Follows R start code' Eq (conditional host node) (conditional host' node) := by
  refine .bind (alike_requiredChild agree.get agree.children 0) fun condition c' same => ?_
  obtain ⟨rfl, -⟩ := same
  refine .andThen (alike_visitFolding agree before) fun met => ?_
  rcases met with _ | _ | child
  · exact alike_chooseOperand agree hosts condition
  · exact .done
  · exact .ite (fun _ => alike_chooseOperand agree hosts condition) fun _ =>
      .andThen (alike_take child) fun _ => .done

theorem alike_call :
    Follows R start code' Eq (call host node) (call host' node) := by
  refine .bind (alike_requiredChild agree.get agree.children 0) fun callee c' same => ?_
  obtain ⟨rfl, -⟩ := same
  refine .andThen (alike_nextChild agree before) fun next => ?_
  cases next with
  | some child => exact .done
  | none =>
    refine alike_code ?_
    rw [agree.children]
    refine .andThen (alike_takeAll _) fun args => .andThen (alike_take callee) fun function => ?_
    refine alike_store fun s h _ => ?_
    rw [Store.callee_withHost]
    rcases s.callee function with e | id | id
    · exact alike_fault _
    · exact .andThen (alike_act (hosts id args)) fun _ => .done
    · exact .andThen (alike_closure id) fun _ => .done

/-! ## Assignments -/

section Target

omit agree before hosts

variable {target : Nat} (get : code'.get? target = start.code.get? target)
  (children : code'.children target = start.code.children target)
include get children

theorem alike_peekTarget :
    Follows R start code' Eq (peekTarget target : Handler σ Value) (peekTarget target) := by
  refine alike_code ?_
  rw [get]
  split
  · refine alike_store fun s h _ => alike_frame fun frame _ _ => ?_
    rw [Store.get_withHost]
    exact .done
  · refine alike_frame fun frame _ _ => ?_
    refine .bind (alike_requiredChild get children 0) fun base c' same => ?_
    obtain ⟨rfl, -⟩ := same
    refine alike_frame fun frame' _ _ => ?_
    refine .bind (alike_requiredChild get children 1) fun key c' same => ?_
    obtain ⟨rfl, -⟩ := same
    refine alike_store fun s h _ => ?_
    rw [Store.text_withHost, Store.get_withHost]
    exact .done
  · exact .done

theorem alike_resolveTarget :
    Follows R start code' Eq (resolveTarget target : Handler σ Slot)
      (resolveTarget target) := by
  refine alike_code ?_
  rw [get]
  split
  · refine alike_frame fun frame _ _ => ?_
    simp only
    split
    · refine alike_store fun s h _ => ?_
      rw [Slot.ofBinding_withHost]
      exact .done
    · exact alike_fault _
  · refine .andThen (alike_discard target) fun _ => ?_
    refine .bind (alike_requiredChild get children 0) fun base c' same => ?_
    obtain ⟨rfl, -⟩ := same
    refine .andThen (alike_take base) fun object => alike_store fun s h _ => ?_
    refine .bind (alike_requiredChild get children 1) fun key c' same => ?_
    obtain ⟨rfl, -⟩ := same
    refine .andThen (alike_take key) fun name => ?_
    rw [Store.text_withHost]
    split
    · exact .done
    · refine alike_store fun s' h' _ => ?_
      rw [Store.text_withHost]
      exact alike_fault _
  · exact .throw _
  · exact .throw _
  · exact .andThen (alike_kindName get) fun kind => .throw _

theorem alike_updateHook (op : UpdateOp) (node : Nat) (operand : Option Nat) :
    Follows R start code' Eq
      (updateHook op node target operand : Handler σ (Option Move))
      (updateHook op node target operand) := by
  refine .ite (fun _ => .done) fun _ => ?_
  refine .andThen (alike_peekTarget get children) fun current => alike_frame fun frame _ _ => ?_
  exact alike_runHooks _ .toNumber

include hosts in
theorem alike_foldUpdate (op : UpdateOp) (givesOld : Bool) (node : Nat) (operand : Option Nat) :
    Follows R start code' Eq (foldUpdate host op givesOld node target operand)
      (foldUpdate host' op givesOld node target operand) := by
  refine .andThen (alike_updateHook get children op node operand) fun hook => ?_
  cases hook with
  | some move => exact .done
  | none =>
    refine .andThen (alike_takeOperand operand) fun value => alike_frame fun frame _ _ => ?_
    refine .andThen (alike_discardConverted node) fun _ => ?_
    refine .andThen (alike_resolveTarget get children) fun slot => alike_store fun s h _ => ?_
    rw [Slot.read_withHost]
    refine .andThen (alike_act (hosts.update op _ value)) fun new => ?_
    exact alike_store fun s' h' related =>
      .andThen (alike_setStore (s := slot.write s' new) related) fun _ => .done

end Target

omit hosts in
theorem alike_nextPart {target : Nat} (get : code'.get? target = start.code.get? target)
    (operand : Option Nat) :
    Follows R start code' Eq (nextPart node target operand : Handler σ (Option Nat))
      (nextPart node target operand) := by
  refine .andThen (alike_visitFolding agree before) fun met => ?_
  rcases met with _ | _ | child
  · exact .done
  · refine alike_code ?_
    rw [get]
    exact .ite (fun _ => .done) fun _ => .done
  · exact .done

theorem alike_assignment (op : UpdateOp) (givesOld : Bool) :
    Follows R start code' Eq (assignment host node op givesOld)
      (assignment host' node op givesOld) := by
  refine .bind (alike_requiredChild agree.get agree.children 0) fun target c' same => ?_
  obtain ⟨rfl, member⟩ := same
  obtain ⟨get, children, -⟩ := agree.child target member
  refine alike_code ?_
  rw [Outline.child, Outline.child, agree.children]
  refine .andThen (alike_nextPart agree before get _) fun next => ?_
  cases next with
  | some part => exact .done
  | none => exact alike_foldUpdate hosts get children op givesOld node _

/-! ## Nodes -/

theorem alike_construct (o : Operation) :
    Follows R start code' Eq (construct host node o) (construct host' node o) := by
  cases o with
  | grouping => exact alike_passThrough agree before
  | objectLiteral => exact alike_objectLiteral agree before
  | functionLiteral => exact alike_functionLiteral agree
  | member => exact alike_memberAccess agree before
  | call => exact alike_call agree before hosts
  | logicalAnd => exact alike_logical agree before hosts false
  | logicalOr => exact alike_logical agree before hosts true
  | conditional => exact alike_conditional agree before hosts
  | _ => exact .throw _

theorem alike_operation (o : Operation) :
    Follows R start code' Eq (operation host node o) (operation host' node o) := by
  unfold operation
  split
  · exact alike_binary agree before hosts _
  · exact alike_unary agree before hosts _
  · exact alike_assignment agree before hosts _ _
  · exact alike_construct agree before hosts o

theorem alike_statement (s : Statement) :
    Follows R start code' Eq (statement host node s) (statement host' node s) := by
  cases s with
  | unit | block => exact alike_sequence agree before
  | expression => exact alike_passThrough agree before
  | ifElse => exact alike_ifElse agree before hosts
  | whileLoop => exact alike_whileLoop agree before hosts
  | doLoop => exact alike_doLoop agree before hosts
  | ret => exact alike_returnValue agree before
  | functionDeclaration => exact alike_functionDeclaration agree before
  | breakOut | continueOn | forLoop | throw => exact .throw _

/-- Where the codes agree around a node and the hosts do the same, so does the handler. -/
theorem alike_node :
    Follows R start code' Eq (Handler.node host node) (Handler.node host' node) := by
  refine alike_code ?_
  rw [agree.get]
  split
  · exact alike_statement agree before hosts _
  · exact alike_operation agree before hosts _
  · exact alike_declaration agree before _
  · exact alike_nameUse _
  · exact .done
  · rename_i outside
    refine alike_code ?_
    rw [agree.size outside]
    exact .throw _

end Hosts

end Resumed

end Node

end Handler

end StepScript
