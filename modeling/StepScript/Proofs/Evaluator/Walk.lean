import StepScript.Proofs.Evaluator.Behaviour
import StepScript.Proofs.Machine.Handlers

/-! The machine inside one frame.

A `Setting` is all that stays the same while a frame walks over its code. Within
it a machine is given by its store, the two cursors and the two maps of the
frame, and one step of it by what the handler of the current node does.
-/

set_option autoImplicit false

namespace StepScript

variable {σ α β : Type}

/-! ## Handlers as functions -/

namespace Handler

def exec (x : Handler σ α) (l : Local σ) : Except EvalError α × Local σ :=
  x.run l

def andThen (f : α → Handler σ β) : Except EvalError α × Local σ → Except EvalError β × Local σ
  | (.ok a, l) => (f a).exec l
  | (.error e, l) => (.error e, l)

@[simp] theorem andThen_ok (f : α → Handler σ β) (a : α) (l : Local σ) :
    andThen f (.ok a, l) = (f a).exec l := rfl

@[simp] theorem andThen_error (f : α → Handler σ β) (e : EvalError) (l : Local σ) :
    andThen f (.error e, l) = (.error e, l) := rfl

@[simp] theorem exec_bind (x : Handler σ α) (f : α → Handler σ β) (l : Local σ) :
    (x >>= f).exec l = andThen f (x.exec l) := by
  show ExceptT.bindCont f (x.run l).1 (x.run l).2 = andThen f (x.run l)
  rcases x.run l with ⟨e | a, after⟩
  · rfl
  · rfl

@[simp] theorem exec_map (f : α → β) (x : Handler σ α) (l : Local σ) :
    (f <$> x).exec l = andThen (fun a => pure (f a)) (x.exec l) := by
  rw [← bind_pure_comp, exec_bind]

@[simp] theorem exec_pure (a : α) (l : Local σ) :
    (pure a : Handler σ α).exec l = (.ok a, l) := rfl

@[simp] theorem exec_throw (e : EvalError) (l : Local σ) :
    (throw e : Handler σ α).exec l = (.error e, l) := rfl

@[simp] theorem exec_fault (f : Fault) (l : Local σ) :
    (fault f : Handler σ α).exec l = (.error (.uncaught f), l) := rfl

@[simp] theorem exec_frame (l : Local σ) : (frame : Handler σ Frame).exec l = (.ok l.frame, l) :=
  rfl

@[simp] theorem exec_code (l : Local σ) :
    (code : Handler σ Code).exec l = (.ok l.frame.code, l) := rfl

@[simp] theorem exec_store (l : Local σ) : (store : Handler σ (Store σ)).exec l = (.ok l.store, l) :=
  rfl

@[simp] theorem exec_setStore (s : Store σ) (l : Local σ) :
    (setStore s).exec l = (.ok (), { l with store := s }) := rfl

@[simp] theorem exec_modifyFrame (f : Frame → Frame) (l : Local σ) :
    (modifyFrame f : Handler σ Unit).exec l = (.ok (), { l with frame := f l.frame }) := rfl

@[simp] theorem exec_closure (id : Nat) (l : Local σ) :
    (closure id : Handler σ Closure).exec l = (.ok (l.store.closure id), l) := rfl

@[simp] theorem exec_take (node : Nat) (l : Local σ) :
    (take node : Handler σ Value).exec l =
      (.ok (l.frame.peek node), { l with frame := l.frame.discard node }) := rfl

@[simp] theorem exec_ofExcept_ok (a : α) (l : Local σ) :
    (ofExcept (.ok a) : Handler σ α).exec l = (.ok a, l) := rfl

@[simp] theorem exec_act (computation : Act σ α) (l : Local σ) :
    (act computation).exec l =
      match computation.run l.store with
      | (.ok a, s) => (.ok a, { l with store := s })
      | (.error e, s) => (.error (.ofValueError e), { l with store := s }) := by
  simp only [act, exec_bind, exec_store, andThen_ok]
  rcases computation.run l.store with ⟨e | a, after⟩
  · rfl
  · rfl

def descendOr (finish : Handler σ Move) : Option Nat → Handler σ Move
  | some child => return .descend child
  | none => finish

@[simp] theorem descendOr_some (finish : Handler σ Move) (child : Nat) :
    descendOr finish (some child) = pure (.descend child) := rfl

@[simp] theorem descendOr_none (finish : Handler σ Move) : descendOr finish none = finish := rfl

theorem exec_ite (c : Prop) [Decidable c] (x y : Handler σ α) (l : Local σ) :
    (if c then x else y).exec l = if c then x.exec l else y.exec l := by
  split
  · rfl
  · rfl

end Handler

def Node.isAssignment : Node → Bool
  | .operation o => o.isAssignment
  | _ => false

/-! ## Settings -/

/-- What stays the same while a frame walks over its code. -/
structure Setting where
  kind : FrameKind
  scope : Value
  tree : Rose Node
  below : List Frame
  global : Value
  depthLimit : Nat
  pending : List Code
  last : Value

namespace Setting

variable (c : Setting)

def frame (current previous : Nat) (memo converted : NodeMap Value) : Frame :=
  ⟨c.kind, c.scope, .ofRose c.tree, current, previous, memo, converted⟩

def base (s : Store σ) : Machine σ :=
  ⟨s, c.global, c.depthLimit, c.pending, c.below, c.last⟩

def state (s : Store σ) (current previous : Nat) (memo converted : NodeMap Value) : Machine σ :=
  { c.base s with stack := c.frame current previous memo converted :: c.below }

@[simp] theorem frame_discard (current previous node : Nat) (memo converted : NodeMap Value) :
    (c.frame current previous memo converted).discard node =
      c.frame current previous (memo.erase node) converted := rfl

@[simp] theorem frame_keep (current previous node : Nat) (memo converted : NodeMap Value)
    (value : Value) :
    (c.frame current previous memo converted).keep node value =
      c.frame current previous (memo.insert node value) converted := rfl

@[simp] theorem frame_discardConverted (current previous node : Nat)
    (memo converted : NodeMap Value) :
    (c.frame current previous memo converted).discardConverted node =
      c.frame current previous memo (converted.erase node) := rfl

@[simp] theorem frame_peek (current previous node : Nat) (memo converted : NodeMap Value) :
    (c.frame current previous memo converted).peek node = (memo.find? node).getD .undefined := rfl

@[simp] theorem frame_code (current previous : Nat) (memo converted : NodeMap Value) :
    (c.frame current previous memo converted).code = .ofRose c.tree := rfl

@[simp] theorem frame_scope (current previous : Nat) (memo converted : NodeMap Value) :
    (c.frame current previous memo converted).scope = c.scope := rfl

@[simp] theorem frame_kind (current previous : Nat) (memo converted : NodeMap Value) :
    (c.frame current previous memo converted).kind = c.kind := rfl

@[simp] theorem frame_converted (current previous : Nat) (memo converted : NodeMap Value) :
    (c.frame current previous memo converted).converted = converted := rfl

def here : Activation :=
  ⟨c.scope, c.below.length + 1⟩

def inner (kind : FrameKind) (scope : Value) (tree : Rose Node) (caller : Frame) : Setting :=
  { c with kind := kind, scope := scope, tree := tree, below := caller :: c.below }

variable (host : Host σ)

def given (value : Value) (s : Store σ) : Behaviour σ :=
  match Machine.deliver host (c.base s) c.kind value with
  | (.ok _, m) => m.behaviour host
  | (.error e, m) => .stopped (.error e, m.abort)

def resulting : Except EvalError Move × Local σ → Behaviour σ
  | (.ok move, l) =>
    match Machine.apply host (c.base l.store) l.frame move with
    | (.ok _, m) => m.behaviour host
    | (.error e, m) => .stopped (.error e, m.abort)
  | (.error e, l) => .stopped (.error e, (c.base l.store).abort)

/-- A step is the work of the handler of the current node. -/
theorem behaviour_state (s : Store σ) (current previous : Nat) (memo converted : NodeMap Value) :
    (c.state s current previous memo converted).behaviour host =
      (c.resulting host
        ((Handler.node host current).exec ⟨c.frame current previous memo converted, s⟩)).delay := by
  rw [Machine.behaviour_eq_delay host rfl]
  congr 1
  have raw : Machine.rawStep host (c.state s current previous memo converted) =
      Machine.stepFrame host (c.state s current previous memo converted)
        (c.frame current previous memo converted) c.below := rfl
  rw [Machine.step, raw, Machine.stepFrame]
  rcases result : (Handler.node host current).exec ⟨c.frame current previous memo converted, s⟩
    with ⟨e | move, l⟩
  · have ran : (Handler.node host (c.frame current previous memo converted).current).run
        ⟨c.frame current previous memo converted,
          (c.state s current previous memo converted).store⟩ = (.error e, l) := result
    rw [ran]
    rfl
  · have ran : (Handler.node host (c.frame current previous memo converted).current).run
        ⟨c.frame current previous memo converted,
          (c.state s current previous memo converted).store⟩ = (.ok move, l) := result
    rw [ran]
    show Machine.behaviourAfter host
      (match Machine.apply host (c.base l.store) l.frame move with
      | (.ok record, m) => (.ok record, m)
      | (.error e, m) => (.error e, m.abort)) = _
    simp only [resulting]
    rcases Machine.apply host (c.base l.store) l.frame move with ⟨e | record, m⟩
    · rfl
    · rfl

variable {c host} {s : Store σ} {n p : Nat} {memo converted : NodeMap Value}

@[simp] theorem resulting_descend (child : Nat) :
    c.resulting host (.ok (.descend child), ⟨c.frame n p memo converted, s⟩) =
      (c.state s child n memo converted).behaviour host := rfl

@[simp] theorem resulting_give (value : Value) :
    c.resulting host (.ok (.give value), ⟨c.frame n p memo converted, s⟩) =
      c.given host value s := by
  simp only [resulting, given, Machine.apply, frame]
  rcases Machine.deliver host (c.base s) c.kind value with ⟨e | _, m⟩
  · rfl
  · rfl

theorem resulting_finish {parent : Nat} (value : Value)
    (above : (Outline.ofRose c.tree).parent n = some parent) :
    c.resulting host (.ok (.finish value), ⟨c.frame n p memo converted, s⟩) =
      (c.state s parent n (memo.insert n value) converted).behaviour host := by
  simp only [resulting, Machine.apply, Machine.finishNode, frame, above]
  rfl

theorem resulting_error (e : EvalError) (l : Local σ) :
    (c.resulting host (.error e, l)).Fails e l.store :=
  ⟨0, _, rfl, rfl⟩

theorem resulting_call_refused {closure : Closure} (args : List Value)
    (full : c.depthLimit ≤ c.below.length + 1) :
    (c.resulting host (.ok (.call closure args), ⟨c.frame n p memo converted, s⟩)).Fails
      (.uncaught .tooManyCalls) s := by
  have refused : Machine.push { c.base s with
      stack := c.frame n p memo converted :: c.below } .function closure args =
        .error (.uncaught .tooManyCalls) := if_pos full
  refine ⟨0, (c.base s).abort, ?_, rfl⟩
  show (c.resulting host _).within 0 = _
  simp only [resulting, Machine.apply]
  rw [show (c.base s).stack = c.below from rfl, refused]
  rfl

theorem resulting_call {closure : Closure} {tree : Rose Node} {parent : Nat} (args : List Value)
    (room : ¬ c.depthLimit ≤ c.below.length + 1) (body : closure.body = .ofRose tree)
    (above : (Outline.ofRose c.tree).parent n = some parent) :
    c.resulting host (.ok (.call closure args), ⟨c.frame n p memo converted, s⟩) =
      ((c.inner .function (.object s.objects.size) tree
          (c.frame parent n (memo.insert n .undefined) converted)).state
        (s.newObject ⟨closure.scope, Machine.bindParams closure.params args []⟩).2 0 0 .empty
          .empty).behaviour host := by
  have pushed : Machine.push { c.base s with
      stack := c.frame n p memo converted :: c.below } .function closure args =
        .ok { c.base (s.newObject ⟨closure.scope,
            Machine.bindParams closure.params args []⟩).2 with
          stack := Frame.start .function (.object s.objects.size) closure.body ::
            c.frame n p memo converted :: c.below } := if_neg room
  have finished : Machine.finishNode (c.frame n p memo converted) .undefined =
      .ok (c.frame parent n (memo.insert n .undefined) converted) := by
    simp only [Machine.finishNode, frame, above]
    rfl
  simp only [resulting, Machine.apply]
  rw [show (c.base s).stack = c.below from rfl, pushed, finished, body]
  rfl

theorem resulting_convert_refused {closure : Closure} (operand : Nat) (conversion : Conversion)
    (full : c.depthLimit ≤ c.below.length + 1) :
    (c.resulting host (.ok (.convert operand conversion closure),
      ⟨c.frame n p memo converted, s⟩)).Fails (.uncaught .tooManyCalls) s := by
  have refused : Machine.push { c.base s with
      stack := c.frame n n memo converted :: c.below } (.conversion operand conversion) closure [] =
        .error (.uncaught .tooManyCalls) := if_pos full
  refine ⟨0, (c.base s).abort, ?_, rfl⟩
  show (c.resulting host _).within 0 = _
  simp only [resulting, Machine.apply]
  rw [show (c.base s).stack = c.below from rfl, show { c.frame n p memo converted with
    previous := (c.frame n p memo converted).current } = c.frame n n memo converted from rfl,
    refused]
  rfl

theorem resulting_convert {closure : Closure} {tree : Rose Node} (operand : Nat)
    (conversion : Conversion) (room : ¬ c.depthLimit ≤ c.below.length + 1)
    (body : closure.body = .ofRose tree) :
    c.resulting host (.ok (.convert operand conversion closure),
        ⟨c.frame n p memo converted, s⟩) =
      ((c.inner (.conversion operand conversion) (.object s.objects.size) tree
          (c.frame n n memo converted)).state
        (s.newObject ⟨closure.scope, Machine.bindParams closure.params [] []⟩).2 0 0 .empty
          .empty).behaviour host := by
  have pushed : Machine.push { c.base s with
      stack := c.frame n n memo converted :: c.below } (.conversion operand conversion) closure [] =
        .ok { c.base (s.newObject ⟨closure.scope,
            Machine.bindParams closure.params [] []⟩).2 with
          stack := Frame.start (.conversion operand conversion) (.object s.objects.size)
            closure.body :: c.frame n n memo converted :: c.below } := if_neg room
  simp only [resulting, Machine.apply]
  rw [show (c.base s).stack = c.below from rfl, show { c.frame n p memo converted with
    previous := (c.frame n p memo converted).current } = c.frame n n memo converted from rfl,
    pushed, body]
  rfl

theorem given_function (scope : Value) (tree : Rose Node) (q : Nat) (value : Value) :
    (c.inner .function scope tree (c.frame q n (memo.insert n .undefined) converted)).given host
        value s =
      (c.state s q n (memo.insert n value) converted).behaviour host := by
  rw [← NodeMap.insert_insert memo n .undefined value]
  rfl

theorem given_conversion (operand : Nat) (conversion : Conversion) (scope : Value)
    (tree : Rose Node) (value : Value) :
    (c.inner (.conversion operand conversion) scope tree (c.frame n n memo converted)).given host
        value s =
      match (host.convert conversion value).run s with
      | (.ok result, s') => (c.state s' n n memo (converted.insert operand result)).behaviour host
      | (.error e, s') => .stopped (.error (.ofValueError e), (c.state s' n n memo converted).abort)
      := by
  simp only [given, inner, Machine.deliver, base]
  rcases (host.convert conversion value).run s with ⟨e | result, after⟩
  · rfl
  · rfl

/-! ## How nodes are met -/

section Visits

variable {path : List Nat} {i : Nat} {sub child : Rose Node}

theorem place_lt_child (found : c.tree.at? path = some sub) (i : Nat) :
    c.tree.place path < c.tree.place (path ++ [i]) := by
  rw [Rose.place_snoc found]
  omega

theorem parent_child (found : c.tree.at? (path ++ [i]) = some sub) :
    (Outline.ofRose c.tree).parent (c.tree.place (path ++ [i])) = some (c.tree.place path) := by
  rw [Outline.parent_place found, Rose.parentPath?_snoc, Option.map_some]

theorem nextSibling_child (found : c.tree.at? path = some sub)
    (selected : sub.children[i]? = some child) :
    (Outline.ofRose c.tree).nextSibling (c.tree.place (path ++ [i])) =
      sub.children[i + 1]?.map fun _ => c.tree.place (path ++ [i + 1]) := by
  have below : c.tree.at? (path ++ [i]) = some child := by rw [Rose.at?_snoc found, selected]
  rw [Outline.nextSibling_place below, Rose.nextPath?_snoc, Rose.at?_snoc found]
  cases sub.children[i + 1]? with
  | none => rfl
  | some next => rfl

theorem firstChild_eq (found : c.tree.at? path = some sub) :
    (Outline.ofRose c.tree).firstChild (c.tree.place path) =
      sub.children[0]?.map fun _ => c.tree.place (path ++ [0]) := by
  rw [Outline.firstChild_place found]
  cases sub.children with
  | nil => rfl
  | cons first rest => rfl

theorem visit_root : (c.frame 0 0 memo converted).visit 0 = .ok .enter := rfl

theorem visit_enter {n up : Nat} (above : (Outline.ofRose c.tree).parent n = some up) :
    (c.frame n up memo converted).visit n = .ok .enter := by
  simp [Frame.visit, frame, above]

theorem lt_of_parent (found : c.tree.at? path = some sub) {up : Nat}
    (above : (Outline.ofRose c.tree).parent (c.tree.place path) = some up) :
    up < c.tree.place path := by
  rcases Rose.eq_nil_or_snoc path with rfl | ⟨upper, j, rfl⟩
  · cases (Outline.parent_place found).symm.trans above
  · obtain ⟨parent, parentFound, -⟩ := Rose.at?_of_snoc found
    cases (parent_child found).symm.trans above
    exact place_lt_child parentFound j

theorem visit_resume (found : c.tree.at? path = some sub)
    (below : c.tree.at? (path ++ [i]) = some child) :
    (c.frame (c.tree.place path) (c.tree.place (path ++ [i])) memo converted).visit
      (c.tree.place path) = .ok (.resume (c.tree.place (path ++ [i]))) := by
  have after := place_lt_child found i
  simp only [Frame.visit, frame, parent_child below, if_true]
  rcases Rose.eq_nil_or_snoc path with rfl | ⟨upper, j, rfl⟩
  -- A child lies behind its parent, so coming from it is not mistaken for coming from above.
  · have root : (Outline.ofRose c.tree).parent (c.tree.place []) = none :=
      Outline.parent_place found
    simp only [root, beq_iff_eq]
    rw [if_neg (by omega)]
  · obtain ⟨parent, parentFound, -⟩ := Rose.at?_of_snoc found
    have before := place_lt_child parentFound j
    simp only [parent_child found, beq_iff_eq]
    rw [if_neg (by omega)]

theorem visitFolding_enter (found : c.tree.at? path = some sub) {up : Nat}
    (above : (Outline.ofRose c.tree).parent (c.tree.place path) = some up) :
    (c.frame (c.tree.place path) up memo converted).visitFolding (c.tree.place path) =
      .ok (some .enter) := by
  rw [Frame.visitFolding, visit_enter above, if_neg]
  · rfl
  · exact fun same => absurd same.1 (Nat.ne_of_lt (lt_of_parent found above))

theorem visitFolding_resume (found : c.tree.at? path = some sub)
    (below : c.tree.at? (path ++ [i]) = some child) :
    (c.frame (c.tree.place path) (c.tree.place (path ++ [i])) memo converted).visitFolding
      (c.tree.place path) = .ok (some (.resume (c.tree.place (path ++ [i])))) := by
  have after := place_lt_child found i
  rw [Frame.visitFolding, visit_resume found below, if_neg]
  · rfl
  · exact fun same => absurd same.1.symm (Nat.ne_of_lt after)

theorem visitFolding_wait {n parent : Nat}
    (above : (Outline.ofRose c.tree).parent n = some parent) :
    (c.frame n n memo converted).visitFolding n = .ok none := by
  rw [Frame.visitFolding, if_pos]
  refine ⟨rfl, ?_⟩
  show ((Outline.ofRose c.tree).parent n).isSome = true
  rw [above]
  rfl

theorem isTarget_child (found : c.tree.at? path = some sub)
    (below : c.tree.at? (path ++ [i]) = some child) :
    Handler.isTarget (.ofRose c.tree) (c.tree.place (path ++ [i])) =
      (sub.value.isAssignment && i == 0) := by
  obtain ⟨parent, parentFound, selected⟩ := Rose.at?_of_snoc below
  cases found.symm.trans parentFound
  have nonempty : sub.children.isEmpty = false := by
    cases whole : sub.children with
    | nil => simp [whole] at selected
    | cons first rest => rfl
  have bound := (List.getElem?_eq_some_iff.mp selected).1
  simp only [Handler.isTarget, parent_child below, Outline.get?_place found,
    Outline.firstChild_place found, nonempty, Bool.false_eq_true, if_false]
  by_cases zero : i = 0
  · subst zero
    rw [beq_self_eq_true, beq_self_eq_true]
    cases sub.value <;> rfl
  · have first : c.tree.at? (path ++ [0]) = some (sub.children.get ⟨0, by omega⟩) := by
      rw [Rose.at?_snoc found]
      exact List.getElem?_eq_getElem _
    -- Different children have different places, so only the first passes the test.
    have differ : c.tree.place (path ++ [0]) ≠ c.tree.place (path ++ [i]) := by
      intro same
      have paths := Rose.place_injective first below same
      exact zero (by simpa using paths.symm)
    have places : (some (c.tree.place (path ++ [0])) == some (c.tree.place (path ++ [i]))) = false :=
      beq_eq_false_iff_ne.mpr fun same => differ (Option.some.inj same)
    have numbers : (i == 0) = false := beq_eq_false_iff_ne.mpr zero
    rw [places, numbers, Bool.and_false, Bool.and_false]

@[simp] theorem exec_visit (n : Nat) (l : Local σ) :
    (Handler.visit n : Handler σ Visit).exec l =
      (Handler.ofExcept (l.frame.visit n)).exec l := rfl

@[simp] theorem exec_visitFolding (n : Nat) (l : Local σ) :
    (Handler.visitFolding n : Handler σ (Option Visit)).exec l =
      (Handler.ofExcept (l.frame.visitFolding n)).exec l := rfl

theorem exec_requiredChild (found : c.tree.at? path = some sub)
    (selected : sub.children[i]? = some child) :
    (Handler.requiredChild (c.tree.place path) i : Handler σ Nat).exec
        ⟨c.frame n p memo converted, s⟩ =
      (.ok (c.tree.place (path ++ [i])), ⟨c.frame n p memo converted, s⟩) := by
  simp only [Handler.requiredChild, Handler.exec_bind, Handler.exec_code, Handler.andThen_ok,
    frame_code, Outline.child_place found, selected, Option.map_some, Handler.exec_pure]

theorem exec_nextChild_resume (found : c.tree.at? path = some sub)
    (selected : sub.children[i]? = some child) :
    (Handler.nextChild (c.tree.place path) : Handler σ (Option Nat)).exec
        ⟨c.frame (c.tree.place path) (c.tree.place (path ++ [i])) memo converted, s⟩ =
      (.ok (sub.children[i + 1]?.map fun _ => c.tree.place (path ++ [i + 1])),
        ⟨c.frame (c.tree.place path) (c.tree.place (path ++ [i])) memo converted, s⟩) := by
  have below : c.tree.at? (path ++ [i]) = some child := by rw [Rose.at?_snoc found, selected]
  simp [Handler.nextChild, visit_resume found below, nextSibling_child found selected]

theorem exec_nextChild_enter (found : c.tree.at? path = some sub)
    (entered : (c.frame (c.tree.place path) p memo converted).visit (c.tree.place path) =
      .ok .enter) :
    (Handler.nextChild (c.tree.place path) : Handler σ (Option Nat)).exec
        ⟨c.frame (c.tree.place path) p memo converted, s⟩ =
      (.ok (sub.children[0]?.map fun _ => c.tree.place (path ++ [0])),
        ⟨c.frame (c.tree.place path) p memo converted, s⟩) := by
  simp [Handler.nextChild, entered, firstChild_eq found]

def handle (host : Host σ) (n : Nat) : Node → Handler σ Move
  | .statement s => Handler.statement host n s
  | .operation o => Handler.operation host n o
  | .declare name => Handler.declaration n name
  | .use name => Handler.nameUse name
  | .literal value => return .finish value

theorem exec_node (found : c.tree.at? path = some sub) (l : Local σ)
    (code : l.frame.code = .ofRose c.tree) :
    (Handler.node host (c.tree.place path)).exec l =
      (handle host (c.tree.place path) sub.value).exec l := by
  have value := Outline.get?_place found
  simp only [Handler.node, Handler.exec_bind, Handler.exec_code, Handler.andThen_ok, code, value]
  cases sub.value <;> rfl

end Visits

/-! ## Steps and simulation -/

section Steps

variable {k : Nat} {x : Eval σ α} {K : α → Store σ → Behaviour σ}
  {R : Value → Store σ → Behaviour σ}

/-- The step that enters a node makes room for one more level of recursion. -/
theorem simulates_enter (simulates : Simulates k x s
      (c.resulting host ((Handler.node host n).exec ⟨c.frame n p memo converted, s⟩)) K R) :
    Simulates (k + 1) x s ((c.state s n p memo converted).behaviour host) K R := by
  rw [c.behaviour_state]
  exact simulates.delay

theorem simulates_step (simulates : Simulates k x s
      (c.resulting host ((Handler.node host n).exec ⟨c.frame n p memo converted, s⟩)) K R) :
    Simulates k x s ((c.state s n p memo converted).behaviour host) K R :=
  (simulates_enter simulates).of_le (Nat.le_succ k)

end Steps

def finished (c : Setting) (host : Host σ) (n up : Nat) (memo converted : NodeMap Value)
    (value : Value) (s : Store σ) : Behaviour σ :=
  (c.state s up n (memo.insert n value) converted).behaviour host

theorem finishes {up : Nat} (above : (Outline.ofRose c.tree).parent n = some up) (value : Value) :
    c.resulting host (.ok (.finish value), ⟨c.frame n p memo converted, s⟩) =
      c.finished host n up memo converted value s :=
  resulting_finish value above

end Setting

/-! ## Nothing kept inside a subtree -/

/-- Nothing is kept under the positions from `first` up to `stop`. -/
def Fresh (m : NodeMap Value) (first stop : Nat) : Prop :=
  ∀ n, first ≤ n → n < stop → m.find? n = none

namespace Fresh

variable {m : NodeMap Value} {first stop : Nat}

theorem empty (first stop : Nat) : Fresh .empty first stop := fun _ _ _ => rfl

theorem sub (fresh : Fresh m first stop) {first' stop' : Nat} (later : first ≤ first')
    (earlier : stop' ≤ stop) : Fresh m first' stop' :=
  fun n lower upper => fresh n (Nat.le_trans later lower) (Nat.lt_of_lt_of_le upper earlier)

theorem insert (fresh : Fresh m first stop) {n : Nat} (outside : n < first ∨ stop ≤ n)
    (value : Value) : Fresh (m.insert n value) first stop := by
  intro other lower upper
  rw [NodeMap.find?_insert, if_neg (by omega)]
  exact fresh other lower upper

end Fresh

end StepScript
