import Mathlib.Data.List.Basic
import StepScript.Proofs.Evaluator.Constructs

/-! Assignments and steps by one do what the evaluator does.

A member that is written to is entered like other nodes, but only its parts are
evaluated: their values stay in the memo, and the assignment takes them when it
resolves the target. `Held` says how the memo holds a reference meanwhile.
-/

set_option autoImplicit false

namespace StepScript

variable {σ β : Type} {host : Host σ} {k : Nat} {c : Setting} {path : List Nat} {n : Nat}
  {memo converted : NodeMap Value} {s : Store σ} {sub : Rose Node} {up : Nat}

namespace Handler

def applyUpdate (host : Host σ) (op : UpdateOp) (givesOld : Bool) (node target : Nat)
    (operand : Option Nat) : Handler σ Move := do
  let value ← takeOperand operand
  let converted := (← frame).converted.find? node
  modifyFrame (·.discardConverted node)
  let slot ← resolveTarget target
  let old := converted.getD (slot.read (← store))
  let new ← act (host.update op old value)
  setStore (slot.write (← store) new)
  return .finish (if givesOld then old else new)

theorem exec_foldUpdate (op : UpdateOp) (givesOld : Bool) (node target : Nat)
    (operand : Option Nat) (l : Local σ) {current : Value}
    (peeks : (peekTarget target).exec l = (.ok current, l)) :
    (foldUpdate host op givesOld node target operand).exec l =
      (afterHooks (updateOperands op node current operand
          ((operand.map l.frame.peek).getD .undefined)) .toNumber
        (applyUpdate host op givesOld node target operand)).exec l := by
  by_cases plain : op = .assign
  · subst plain
    have none : updateOperands .assign node current operand
        ((operand.map l.frame.peek).getD .undefined) = [] := by
      cases operand with
      | none => rfl
      | some operand => rfl
    rw [none, exec_afterHooks_none rfl]
    simp only [foldUpdate, updateHook, if_true, exec_bind, exec_pure, andThen_ok, applyUpdate]
  · simp only [foldUpdate, updateHook, if_neg plain, exec_bind, peeks, andThen_ok, exec_frame,
      afterHooks]
    rfl

theorem map_updateOperands (spots : Nat → Nat) (op : UpdateOp) (node : Nat) (current : Value)
    (operand : Option Nat) (value : Value) :
    (updateOperands op node current operand value).map
        (fun entry => (spots entry.1, entry.2)) =
      updateOperands op (spots node) current (operand.map spots) value := by
  unfold updateOperands
  rw [List.map_append]
  congr 1
  · split
    · rfl
    · rfl
  · cases operand with
    | none => rfl
    | some operand =>
      simp only [Option.map_some]
      split
      · rfl
      · rfl

theorem mem_updateOperands {op : UpdateOp} {node : Nat} {current : Value} {operand : Option Nat}
    {value : Value} {entry : Nat × Value}
    (member : entry ∈ updateOperands op node current operand value) :
    entry.1 = node ∨ operand = some entry.1 := by
  rcases List.mem_append.mp member with isNode | isOperand
  · split at isNode
    · rw [List.mem_singleton.mp isNode]
      exact .inl rfl
    · cases isNode
  · cases operand with
    | none => cases isOperand
    | some operand =>
      simp only at isOperand
      split at isOperand
      · rw [List.mem_singleton.mp isOperand]
        exact .inr rfl
      · cases isOperand

end Handler

/-- The memo holds a reference to the target of an assignment. -/
inductive Held (c : Setting) (path : List Nat) (target : Rose Node) (memo held : NodeMap Value) :
    Reference → Prop where
  | binding {name : String} (use : target.value = .use name) (same : held = memo) :
    Held c path target memo held (.binding name)
  | member {base key : Rose Node} {object name : Value}
    (member : target.value = .operation .member) (parts : target.children = [base, key])
    (same : held = ((memo.insert (c.tree.place (path ++ [0])) object).insert
      (c.tree.place (path ++ [1])) name).insert (c.tree.place path) .undefined) :
    Held c path target memo held (.member object name)

section Held

variable {target : Rose Node} (clear : Clear c path target memo converted) {held : NodeMap Value}
  {reference : Reference} (holds : Held c path target memo held reference)
include clear holds

theorem Held.outside {m : Nat} (out : m < c.tree.place path ∨ c.tree.place path + target.size ≤ m) :
    held.find? m = memo.find? m := by
  cases holds with
  | binding use same => rw [same]
  | @member base key object name member parts same =>
    have first : target.children[0]? = some base := by rw [parts]; rfl
    have second : target.children[1]? = some key := by rw [parts]; rfl
    have := clear.bounds first
    have := clear.bounds second
    have := base.size_pos
    have := key.size_pos
    have := target.size_pos
    simp only [same, NodeMap.find?_insert]
    rw [if_neg (by omega), if_neg (by omega), if_neg (by omega)]

theorem exec_peekTarget {memo' converted' : NodeMap Value} {q : Nat}
    (agree : ∀ m, c.tree.place path ≤ m → m < c.tree.place path + target.size →
      memo'.find? m = held.find? m) :
    (Handler.peekTarget (c.tree.place path)).exec ⟨c.frame n q memo' converted', s⟩ =
      (.ok (reference.peek c.scope s), ⟨c.frame n q memo' converted', s⟩) := by
  have content := Outline.get?_place clear.found
  cases holds with
  | binding use same =>
    simp only [Handler.peekTarget, Handler.exec_bind, Handler.exec_code, Handler.andThen_ok,
      Setting.frame_code, content, use]
    rfl
  | @member base key object name member parts same =>
    have first : target.children[0]? = some base := by rw [parts]; rfl
    have second : target.children[1]? = some key := by rw [parts]; rfl
    have low := clear.bounds first
    have high := clear.bounds second
    have := base.size_pos
    have := key.size_pos
    have apart := clear.before first (by omega : 0 < 1)
    have object' : memo'.find? (c.tree.place (path ++ [0])) = some object := by
      rw [agree _ (by omega) (by omega), same, NodeMap.find?_insert, if_neg (by omega),
        NodeMap.find?_insert, if_neg (by omega), NodeMap.find?_insert, if_pos rfl]
    have name' : memo'.find? (c.tree.place (path ++ [1])) = some name := by
      rw [agree _ (by omega) (by omega), same, NodeMap.find?_insert, if_neg (by omega),
        NodeMap.find?_insert, if_pos rfl]
    simp only [Handler.peekTarget, Handler.exec_bind, Handler.exec_code, Handler.andThen_ok,
      Setting.frame_code, content, member, Setting.exec_requiredChild clear.found first,
      Setting.exec_requiredChild clear.found second, Handler.exec_frame, Setting.frame_peek,
      object', name', Option.getD_some]
    rfl

theorem simulates_resolve {q : Nat} {converted' : NodeMap Value} {f : Slot → Eval σ β}
    {g : Slot → Handler σ Move} {K : β → Store σ → Behaviour σ}
    {R : Value → Store σ → Behaviour σ}
    (next : ∀ slot, Simulates k (f slot) s
      (c.resulting host ((g slot).exec ⟨c.frame n q memo converted', s⟩)) K R) :
    Simulates k (reference.resolve c.scope >>= f) s
      (c.resulting host (Handler.andThen g
        ((Handler.resolveTarget (c.tree.place path)).exec
          ⟨c.frame n q held converted', s⟩))) K R := by
  have content := Outline.get?_place clear.found
  cases holds with
  | @binding name use same =>
    subst same
    simp only [Handler.resolveTarget, Handler.exec_bind, Handler.exec_code, Handler.andThen_ok,
      Setting.frame_code, content, use, Handler.exec_frame, Setting.frame_scope]
    cases c.scope with
    | object id => exact next (.ofBinding s id name)
    | _ => exact Simulates.fail (Setting.resulting_error _ _)
  | @member base key object name member parts same =>
    subst same
    have first : target.children[0]? = some base := by rw [parts]; rfl
    have second : target.children[1]? = some key := by rw [parts]; rfl
    have differ := clear.place_ne first second (by omega)
    have first' := clear.bounds first
    have second' := clear.bounds second
    have absent : ((memo.insert (c.tree.place (path ++ [0])) object).insert
        (c.tree.place (path ++ [1])) name).find? (c.tree.place path) = none := by
      rw [NodeMap.find?_insert, if_neg (by omega), NodeMap.find?_insert, if_neg (by omega)]
      exact clear.absent
    simp only [Handler.resolveTarget, Handler.exec_bind, Handler.exec_code, Handler.andThen_ok,
      Setting.frame_code, content, member, Handler.exec_modifyFrame, Setting.frame_discard,
      NodeMap.erase_insert absent, Setting.exec_requiredChild clear.found first,
      Setting.exec_requiredChild clear.found second, Handler.exec_take, Setting.frame_peek,
      Handler.exec_store, NodeMap.find?_insert, if_neg differ, if_true, Option.getD_some,
      NodeMap.erase_insert_of_ne differ, NodeMap.erase_insert (clear.child first).absent,
      NodeMap.erase_insert (clear.child second).absent]
    simp only [Reference.resolve, bind_assoc]
    apply Simulates.store
    cases object with
    | object id => exact next ⟨id, s.text name⟩
    | _ => exact Simulates.fail (Setting.resulting_error _ _)

end Held

/-! ## The steps of an assignment -/

def Reference.write (reference : Reference) (host : Host σ) (op : UpdateOp) (givesOld : Bool)
    (scope value : Value) (numbered : NodeMap Value) : Eval σ Value := do
  let slot ← reference.resolve scope
  let old := (numbered.find? 0).getD (slot.read (← Eval.store))
  let new ← Eval.act (host.update op old ((numbered.find? 1).getD value))
  Eval.setStore (slot.write (← Eval.store) new)
  return if givesOld then old else new

def Reference.update (reference : Reference) (host : Host σ) (depthLimit fuel : Nat)
    (here : Activation) (op : UpdateOp) (givesOld : Bool) (rest : List (Rose Node))
    (value : Value) : Eval σ Value := do
  let numbered ← Evaluator.settle host depthLimit (Evaluator.eval host depthLimit fuel) here
    .toNumber (fun s => Handler.updateOperands op 0 (reference.peek here.scope s)
      (rest.head?.map fun _ => 1) value) (fuel + 1) .empty
  reference.write host op givesOld here.scope value numbered

theorem Evaluator.assignment_eq (depthLimit fuel : Nat) (here : Activation) (op : UpdateOp)
    (givesOld : Bool) (target : Rose Node) (rest : List (Rose Node)) :
    assignment host depthLimit fuel (eval host depthLimit fuel) here op givesOld target rest.head? =
      (do
        let place ← reference (eval host depthLimit fuel) here target
        let value ← operandValue (eval host depthLimit fuel) here rest.head?
        place.update host depthLimit fuel here op givesOld rest value) := rfl

section Update

variable {op : UpdateOp} {givesOld : Bool} {target : Rose Node} {rest : List (Rose Node)}
  (clear : Clear c path sub memo converted)
  (above : (Outline.ofRose c.tree).parent (c.tree.place path) = some up)
  (agrees : Agrees host k) (bodies : s.Bodies) (keeps : host.Keeps)
  (parts : sub.children = target :: rest) (single : rest.length ≤ 1)
  (handles : Setting.handle host (c.tree.place path) sub.value =
    Handler.assignment host (c.tree.place path) op givesOld)

def Setting.operand (c : Setting) (path : List Nat) (rest : List (Rose Node)) : Option Nat :=
  rest.head?.map fun _ => c.tree.place (path ++ [1])

def NodeMap.withOperand (memo : NodeMap Value) (value : Value) : Option Nat → NodeMap Value
  | some operand => memo.insert operand value
  | none => memo

include clear parts handles

theorem exec_assignment (q : Nat) (memo' converted' : NodeMap Value) (s' : Store σ) :
    (Setting.handle host (c.tree.place path) sub.value).exec
        ⟨c.frame (c.tree.place path) q memo' converted', s'⟩ =
      Handler.andThen (Handler.descendOr (Handler.foldUpdate host op givesOld (c.tree.place path)
          (c.tree.place (path ++ [0])) (c.operand path rest)))
        ((Handler.nextPart (c.tree.place path) (c.tree.place (path ++ [0]))
          (c.operand path rest)).exec ⟨c.frame (c.tree.place path) q memo' converted', s'⟩) := by
  have first : sub.children[0]? = some target := by rw [parts]; rfl
  have operand : (Outline.ofRose c.tree).child (c.tree.place path) 1 = c.operand path rest := by
    rw [Outline.child_place clear.found, parts, List.getElem?_cons_succ, ← List.head?_eq_getElem?]
    rfl
  rw [handles]
  simp only [Handler.assignment, Handler.exec_bind, Setting.exec_requiredChild clear.found first,
    Handler.andThen_ok, Handler.exec_code, Setting.frame_code, operand]
  rfl

omit handles

theorem exec_takeOperand {held after numbered : NodeMap Value} {value : Value} {q : Nat}
    (absent : rest ≠ [] → held.find? (c.tree.place (path ++ [1])) = none)
    (silent : rest = [] → value = .undefined)
    (spread : Spread (Spread.two (c.tree.place path) (c.tree.place (path ++ [1])))
      (rest.length + 1) numbered converted after) (single : rest.length ≤ 1) :
    ∃ after', (Handler.takeOperand (c.operand path rest)).exec
        ⟨c.frame (c.tree.place path) q (held.withOperand value (c.operand path rest)) after, s⟩ =
      (.ok ((numbered.find? 1).getD value), ⟨c.frame (c.tree.place path) q held after', s⟩) ∧
      after'.find? (c.tree.place path) = numbered.find? 0 ∧
      after'.erase (c.tree.place path) = converted := by
  cases rest with
  | nil =>
    refine ⟨after, ?_, spread.inside 0 (by simp), spread.erase_one clear.unsettled⟩
    rw [spread.beyond 1 (Nat.le_refl 1), silent rfl]
    rfl
  | cons operand more =>
    cases List.length_eq_zero_iff.mp (Nat.le_zero.mp (Nat.le_of_succ_le_succ single))
    have second : sub.children[1]? = some operand := by rw [parts]; rfl
    have later := Setting.place_lt_child clear.found 1
    have one : after.find? (c.tree.place (path ++ [1])) = numbered.find? 1 :=
      spread.inside 1 (by simp)
    refine ⟨after.erase (c.tree.place (path ++ [1])), ?_, ?_, ?_⟩
    · show (Handler.takeConverted (c.tree.place (path ++ [1]))).exec ⟨c.frame _ _
        (held.insert (c.tree.place (path ++ [1])) value) _, _⟩ = _
      simp [one, NodeMap.find?_insert, NodeMap.erase_insert (absent (by simp))]
    · rw [NodeMap.find?_erase, if_neg (by omega)]
      exact spread.inside 0 (by simp)
    · rw [NodeMap.erase_comm]
      exact spread.erase_two clear.unsettled (clear.child second).unsettled

theorem operand_free {reference : Reference} {held : NodeMap Value}
    (holds : Held c (path ++ [0]) target memo held reference) (some : rest ≠ []) :
    held.find? (c.tree.place (path ++ [1])) = none ∧
      converted.find? (c.tree.place (path ++ [1])) = none := by
  obtain ⟨operand, more, rfl⟩ := List.exists_cons_of_ne_nil some
  have first : sub.children[0]? = .some target := by rw [parts]; rfl
  have second : sub.children[1]? = .some operand := by rw [parts]; rfl
  rw [holds.outside (clear.child first) (.inr (clear.before first (by omega)))]
  exact ⟨(clear.child second).absent, (clear.child second).unsettled⟩

theorem exec_foldUpdate_held {reference : Reference} {held : NodeMap Value} {value : Value}
    (holds : Held c (path ++ [0]) target memo held reference)
    (silent : rest = [] → value = .undefined) (q : Nat) (converted' : NodeMap Value)
    (s' : Store σ) :
    (Handler.foldUpdate host op givesOld (c.tree.place path) (c.tree.place (path ++ [0]))
        (c.operand path rest)).exec ⟨c.frame (c.tree.place path) q
          (held.withOperand value (c.operand path rest)) converted', s'⟩ =
      (Handler.afterHooks (Handler.updateOperands op (c.tree.place path)
          (reference.peek c.scope s') (c.operand path rest) value) .toNumber
        (Handler.applyUpdate host op givesOld (c.tree.place path) (c.tree.place (path ++ [0]))
          (c.operand path rest))).exec ⟨c.frame (c.tree.place path) q
            (held.withOperand value (c.operand path rest)) converted', s'⟩ := by
  have first : sub.children[0]? = some target := by rw [parts]; rfl
  have inner := clear.child first
  have before := clear.before first (by omega : 0 < 1)
  rw [Handler.exec_foldUpdate op givesOld _ _ _ _ (exec_peekTarget inner holds ?_)]
  · cases rest with
    | nil =>
      rw [silent rfl]
      rfl
    | cons operand more =>
      simp [Setting.operand, NodeMap.withOperand, NodeMap.find?_insert]
  · -- The value of the operand is kept behind the target, where the reference is not read.
    intro m lower upper
    cases rest with
    | nil => rfl
    | cons operand more =>
      show (held.insert (c.tree.place (path ++ [1])) value).find? m = held.find? m
      rw [NodeMap.find?_insert, if_neg (by omega)]

include above keeps single

theorem simulates_write {reference : Reference} {held numbered after : NodeMap Value}
    {value : Value} (holds : Held c (path ++ [0]) target memo held reference)
    (silent : rest = [] → value = .undefined)
    (spread : Spread (Spread.two (c.tree.place path) (c.tree.place (path ++ [1])))
      (rest.length + 1) numbered converted after) (q : Nat) (bodies : s.Bodies) :
    Simulates k (reference.write host op givesOld c.scope value numbered) s
      (c.resulting host ((Handler.applyUpdate host op givesOld (c.tree.place path)
        (c.tree.place (path ++ [0])) (c.operand path rest)).exec ⟨c.frame (c.tree.place path) q
          (held.withOperand value (c.operand path rest)) after, s⟩))
      (c.finished host (c.tree.place path) up memo converted) (c.given host) := by
  have first : sub.children[0]? = some target := by rw [parts]; rfl
  obtain ⟨after', taken, old, restored⟩ := exec_takeOperand (q := q) (s := s) clear parts
    (fun some => (operand_free clear parts holds some).1) silent spread single
  simp only [Handler.applyUpdate, Handler.exec_bind, taken, Handler.andThen_ok,
    Handler.exec_frame, Setting.frame_converted, old, Handler.exec_modifyFrame,
    Setting.frame_discardConverted, restored]
  apply simulates_resolve (clear.child first) holds
  intro slot
  apply Simulates.store
  simp only [Handler.exec_bind, Handler.exec_store, Handler.andThen_ok, Handler.exec_act]
  apply Simulates.act (keeps.update op _ _) bodies
  · intro e s' run
    rw [run]
    exact Setting.resulting_error _ _
  · intro new s' run bodies'
    rw [run]
    apply Simulates.store
    apply Simulates.setStore
    exact Clear.finish above (bodies'.insert _ _ _) _

include agrees bodies

/-- An update from the point where all its parts are finished. -/
theorem simulates_foldUpdate {reference : Reference} {held : NodeMap Value} {value : Value}
    (holds : Held c (path ++ [0]) target memo held reference)
    (silent : rest = [] → value = .undefined) {p : Nat}
    (folds : ∀ q, q = p ∨ q = c.tree.place path → ∀ memo' converted' s',
      (Setting.handle host (c.tree.place path) sub.value).exec
          ⟨c.frame (c.tree.place path) q memo' converted', s'⟩ =
        (Handler.foldUpdate host op givesOld (c.tree.place path) (c.tree.place (path ++ [0]))
          (c.operand path rest)).exec ⟨c.frame (c.tree.place path) q memo' converted', s'⟩) :
    Simulates (k + 1) (reference.update host c.depthLimit k c.here op givesOld rest value) s
      ((c.state s (c.tree.place path) p (held.withOperand value (c.operand path rest))
        converted).behaviour host)
      (c.finished host (c.tree.place path) up memo converted) (c.given host) := by
  have later := Setting.place_lt_child clear.found 1
  have settles (q : Nat) (either : q = p ∨ q = c.tree.place path) (converted' : NodeMap Value)
      (s' : Store σ) :=
    calc (Handler.node host (c.tree.place path)).exec ⟨c.frame (c.tree.place path) q
          (held.withOperand value (c.operand path rest)) converted', s'⟩
      _ = _ := Setting.exec_node clear.found _ rfl
      _ = _ := folds q either _ _ _
      _ = _ := exec_foldUpdate_held clear parts holds silent q converted' s'
  have fits : k + 1 ≤ min (k + 1) (k + 1) := by omega
  apply Simulates.of_le ?_ fits
  -- Operand `0` is kept under the node itself and operand `1` under its second child.
  apply simulates_settle agrees keeps
    (Spread.two (c.tree.place path) (c.tree.place (path ++ [1]))) (rest.length + 1)
    ?_ ?_ (fun s => Handler.updateOperands op (c.tree.place path)
      (reference.peek c.scope s) (c.operand path rest) value) ?_ settles ?_ (k + 1)
      (Nat.le_refl _) _ (.inl rfl) _ _ (Spread.empty ?_) s bodies
  · intro i bound j bound'
    exact Spread.two_distinct (Nat.ne_of_lt later) i (by omega) j (by omega)
  · intro s' entry member
    rcases Handler.mem_updateOperands member with isNode | isOperand
    · omega
    · cases rest with
      | nil => cases isOperand
      | cons operand more =>
        have one : entry.1 = 1 := (Option.some.inj isOperand).symm
        rw [one, List.length_cons]
        omega
  · intro s'
    rw [Handler.map_updateOperands]
    cases rest with
    | nil => rfl
    | cons operand more => rfl
  · intro q numbered after s' spread bodies'
    exact simulates_write clear above keeps parts single holds silent spread q bodies'
  · intro j bound
    match j with
    | 0 => exact clear.unsettled
    | 1 => exact (operand_free clear parts holds (by rintro rfl; simp at bound)).2
    | j + 2 => omega

include handles

theorem simulates_operand {reference : Reference} {held : NodeMap Value}
    (holds : Held c (path ++ [0]) target memo held reference) {p : Nat}
    (goes : ∀ memo' converted' (s' : Store σ),
      (Handler.nextPart (c.tree.place path) (c.tree.place (path ++ [0]))
          (c.operand path rest)).exec ⟨c.frame (c.tree.place path) p memo' converted', s'⟩ =
        (.ok (c.operand path rest), ⟨c.frame (c.tree.place path) p memo' converted', s'⟩)) :
    Simulates (k + 1) (do
        let value ← Evaluator.operandValue (Evaluator.eval host c.depthLimit k) c.here rest.head?
        reference.update host c.depthLimit k c.here op givesOld rest value) s
      ((c.state s (c.tree.place path) p held converted).behaviour host)
      (c.finished host (c.tree.place path) up memo converted) (c.given host) := by
  have first : sub.children[0]? = some target := by rw [parts]; rfl
  have waits (memo' converted' : NodeMap Value) (s' : Store σ) :
      (Setting.handle host (c.tree.place path) sub.value).exec
          ⟨c.frame (c.tree.place path) (c.tree.place path) memo' converted', s'⟩ =
        (Handler.foldUpdate host op givesOld (c.tree.place path) (c.tree.place (path ++ [0]))
          (c.operand path rest)).exec
          ⟨c.frame (c.tree.place path) (c.tree.place path) memo' converted', s'⟩ := by
    rw [exec_assignment clear parts handles]
    simp [Handler.nextPart, Setting.visitFolding_wait above]
  cases rest with
  | nil =>
    -- A step by one has no operand: the step that resumes after the target folds at once.
    apply simulates_foldUpdate clear above agrees bodies keeps parts single holds (fun _ => rfl)
    rintro q (rfl | rfl) memo' converted' s'
    · rw [exec_assignment clear parts handles, goes]
      rfl
    · exact waits memo' converted' s'
  | cons operand more =>
    have second : sub.children[1]? = some operand := by rw [parts]; rfl
    have before := clear.before first (by omega : 0 < 1)
    have tidy : Clear c (path ++ [1]) operand held converted := by
      have inner := clear.child second
      refine ⟨inner.found, inner.shaped, ?_, inner.settled⟩
      intro m lower upper
      rw [holds.outside (clear.child first) (.inr (by omega))]
      exact inner.fresh m lower upper
    apply clear.descend (c.tree.place (path ++ [1]))
    · rw [exec_assignment clear parts handles, goes]
      rfl
    apply Simulates.bind (agrees c _ _ operand s held converted tidy (clear.above second)
      (clear.plain second fun zero => by omega) bodies)
    intro value s' bodies'
    apply Simulates.of_le ?_ (Nat.le_succ k)
    apply simulates_foldUpdate clear above agrees bodies' keeps parts single holds (by simp)
    rintro q (rfl | rfl) memo' converted' s''
    · rw [exec_assignment clear parts handles]
      simp [Handler.nextPart, Setting.visitFolding_resume clear.found (clear.below second),
        clear.place_ne second first (by omega)]
    · exact waits memo' converted' s''

theorem performs_assignment {o : Operation} (content : sub.value = .operation o)
    (assigns : o.isAssignment = true) (assignable : target.value.isAssignable = true) :
    Performs host c (c.tree.place path) up memo converted s (k + 1)
      (Evaluator.assignment host c.depthLimit k (Evaluator.eval host c.depthLimit k) c.here op
        givesOld target rest.head?) := by
  have first : sub.children[0]? = some target := by rw [parts]; rfl
  have inner := clear.child first
  have written := Outline.get?_place inner.found
  rw [Evaluator.assignment_eq]
  rcases Node.cases_of_isAssignable assignable with ⟨name, use⟩ | member
  · have bound : Evaluator.reference (Evaluator.eval host c.depthLimit k) c.here target =
        pure (.binding name) := by
      rw [Evaluator.reference, use]
    rw [bound, pure_bind]
    apply simulates_operand clear above agrees bodies keeps parts single handles (.binding use rfl)
    intro memo' converted' s'
    simp [Handler.nextPart, Setting.visitFolding_enter clear.found above, written, use,
      Node.isOperation]
  · obtain ⟨base, key, pair⟩ : ∃ base key, target.children = [base, key] := by
      have fits := inner.shaped.fits
      rw [member] at fits
      have count := Operation.length_of_fits (o := .member) fits rfl
      rw [List.length_map] at count
      exact List.length_eq_two.mp count
    have isTarget : Handler.isTarget (.ofRose c.tree) (c.tree.place (path ++ [0])) = true := by
      rw [Setting.isTarget_child clear.found inner.found, content]
      simp [Node.isAssignment, assigns]
    have fetched : Evaluator.reference (Evaluator.eval host c.depthLimit k) c.here target = (do
        let object ← Evaluator.eval host c.depthLimit k c.here base
        let name ← Evaluator.eval host c.depthLimit k c.here key
        return .member object name) := by
      rw [Evaluator.reference, member, pair]
    simp only [fetched, bind_assoc, pure_bind]
    -- The member is entered like other nodes, but as a target it only leaves its parts behind.
    apply clear.descend (c.tree.place (path ++ [0]))
    · rw [exec_assignment clear parts handles]
      simp [Handler.nextPart, Setting.visitFolding_enter clear.found above, written, member,
        Node.isOperation]
    apply Simulates.of_le (simulates_member inner (clear.above first) agrees bodies member pair ?_)
      (Nat.le_succ k)
    intro object name s' bodies'
    rw [if_pos isTarget, Handler.exec_pure, Setting.resulting_finish _ (clear.above first)]
    apply Simulates.of_le ?_ (Nat.le_succ k)
    apply simulates_operand clear above agrees bodies' keeps parts single handles
      (.member member pair rfl)
    intro memo' converted' s''
    simp [Handler.nextPart, Setting.visitFolding_resume clear.found inner.found]

end Update

end StepScript
