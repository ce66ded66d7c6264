import StepScript.Proofs.Evaluator.Assignments
import StepScript.Proofs.Stack.Operators

/-! Assignments that combine what is there with an operand.

While hooks run for an update, its target is looked at anew each time that the
node is met: which slot it denotes, what this holds, and with that whether there
is anything to convert at all. So a hook that changes any of it changes the update.
Where no hook does, an update does to its slot what the binary operator does to
the value in it and the operand, with the same hooks.
-/

set_option autoImplicit false

namespace StepScript

variable {σ : Type} {host : Host σ}

def UpdateOp.binary? : UpdateOp → Option BinaryOp
  | add => some .add
  | subtract => some .subtract
  | multiply => some .multiply
  | divide => some .divide
  | remainder => some .remainder
  | assign | increment | decrement => none

theorem Host.update_of_binary? {u : UpdateOp} {op : BinaryOp} (binary : u.binary? = some op)
    (old value : Value) : host.update u old value = host.binary op old value := by
  cases u <;> cases binary <;> rfl

theorem Handler.updateOperands_of_binary? {u : UpdateOp} {op : BinaryOp}
    (binary : u.binary? = some op) (n operand : Nat) (current value : Value) :
    updateOperands u n current (some operand) value =
      if op.isNumericOn current value then [(n, current), (operand, value)] else [] := by
  cases u <;> cases binary
  case add =>
    unfold updateOperands UpdateOp.isNumericOnCurrent UpdateOp.isNumericOnOperand
    cases BinaryOp.add.isNumericOn current value <;> rfl
  all_goals rfl

/-! ## Slots -/

namespace Store

variable {s : Store σ} {id o : Nat} {key : String}

theorem own?_of_ownerWithin {limit : Nat} (found : s.ownerWithin key limit id = some o) :
    (s.own? o key).isSome = true := by
  induction limit generalizing id with
  | zero => cases found
  | succ limit ih =>
    rw [ownerWithin] at found
    split at found
    · rename_i own
      cases found
      exact own
    · obtain ⟨next, -, found⟩ := Option.bind_eq_some_iff.mp found
      exact ih found

theorem lt_of_own? (own : (s.own? o key).isSome = true) : o < s.objects.size := by
  obtain ⟨value, has⟩ := Option.isSome_iff_exists.mp own
  obtain ⟨object, there, -⟩ := Option.bind_eq_some_iff.mp has
  exact (Array.getElem?_eq_some_iff.mp there).1

theorem owner?_of_own? (own : (s.own? o key).isSome = true) : s.owner? o key = some o := by
  obtain ⟨limit, count⟩ := Nat.exists_eq_add_of_le' (Nat.zero_lt_of_lt (lt_of_own? own))
  rw [owner?, count, ownerWithin, if_pos own]

theorem lookup_of_owner? (found : s.owner? id key = some o) : s.lookup o key = s.lookup id key := by
  rw [lookup, lookup, found, owner?_of_own? (own?_of_ownerWithin found)]

end Store

def Reference.slot? (scope : Value) (s : Store σ) : Reference → Option Slot
  | binding name =>
    match scope with
    | .object id => some (.ofBinding s id name)
    | _ => none
  | member base key =>
    match base with
    | .object id => some ⟨id, s.text key⟩
    | _ => none

def Slot.content (slot? : Option Slot) (s : Store σ) : Value :=
  (slot?.map (·.read s)).getD .undefined

theorem Reference.peek_eq (reference : Reference) (scope : Value) (s : Store σ) :
    reference.peek scope s = Slot.content (reference.slot? scope s) s := by
  cases reference with
  | binding name =>
    cases scope with
    | object id =>
      cases found : s.owner? id name with
      | none =>
        simp [peek, slot?, Slot.content, Slot.read, Slot.ofBinding, Store.get, Store.objectOf,
          found, Except.map, Except.toOption]
      | some o =>
        simp [peek, slot?, Slot.content, Slot.read, Slot.ofBinding, Store.get, Store.objectOf,
          found, Except.map, Except.toOption, Store.lookup_of_owner? found]
    | _ => rfl
  | member base key =>
    cases base with
    | object id => rfl
    | _ => rfl

namespace Frame

def reference? (frame : Frame) (target : Nat) : Option Reference :=
  match frame.code.get? target with
  | some (.use name) => some (.binding name)
  | some (.operation .member) => do
    let base ← frame.code.child target 0
    let key ← frame.code.child target 1
    return .member (frame.peek base) (frame.peek key)
  | _ => none

def slot? (frame : Frame) (target : Nat) (s : Store σ) : Option Slot :=
  (frame.reference? target).bind (·.slot? frame.scope s)

/-- What an update combines: the node itself stands for the old value. -/
def combined (target : Nat) (frame : Frame) (s : Store σ) (k : Nat) : Value :=
  if k = frame.current then Slot.content (frame.slot? target s) s else frame.peek k

/-- What an update works on: what a hook has made of a place, or what the place holds. -/
def settled (target : Nat) (frame : Frame) (s : Store σ) (k : Nat) : Value :=
  (frame.converted.find? k).getD (frame.combined target s k)

theorem slot?_congr (frame frame' : Frame) {target : Nat} (code : frame'.code = frame.code)
    (scope : frame'.scope = frame.scope)
    (agree : ∀ k ∈ frame.code.children target, frame'.peek k = frame.peek k) (s : Store σ) :
    frame'.slot? target s = frame.slot? target s := by
  have part {i c : Nat} (child : frame.code.child target i = some c) :
      frame'.peek c = frame.peek c := agree c (List.mem_of_getElem? child)
  have same : frame'.reference? target = frame.reference? target := by
    unfold reference?
    rw [code]
    split
    · rfl
    · cases first : frame.code.child target 0 with
      | none => rfl
      | some base =>
        cases second : frame.code.child target 1 with
        | none => rfl
        | some key => simp only [Option.bind_eq_bind, Option.bind_some, part first, part second]
    · rfl
  rw [slot?, slot?, same, scope]

end Frame

inductive Updates (code : Code) (n : Nat) (op : BinaryOp) (target operand : Nat) : Prop where
  | intro {o : Operation} {u : UpdateOp} (found : code.get? n = some (.operation o))
    (update : o.update? = some u) (binary : u.binary? = some op)
    (parts : code.children n = [target, operand])

theorem Site.exists_updates {code : Code} {n : Nat} {o : Operation} {parts : List Node}
    (site : Site code n (.operation o) parts) {u : UpdateOp} {op : BinaryOp}
    (update : o.update? = some u) (binary : u.binary? = some op) :
    ∃ target operand, Updates code n op target operand := by
  have arity : o.arity? = some 2 := by
    cases o <;> cases update <;> first | rfl | cases binary
  have lengths : (code.children n).length = 2 := by
    rw [← Operation.length_of_fits site.fits arity]
    simpa using congrArg List.length site.children
  obtain ⟨target, operand, whole⟩ := List.length_eq_two.mp lengths
  exact ⟨target, operand, .intro site.get? update binary whole⟩

/-! ## The handler of an update -/

section Target

variable (frame : Frame) {target : Nat}

theorem exec_peekTarget_slot (writable : Handler.Target frame.code target) (s : Store σ) :
    (Handler.peekTarget target).exec ⟨frame, s⟩ =
      (.ok (Slot.content (frame.slot? target s) s), ⟨frame, s⟩) := by
  rcases writable with ⟨name, found⟩ | ⟨found, base, key, first, second⟩
  · have same : frame.slot? target s = (Reference.binding name).slot? frame.scope s := by
      rw [Frame.slot?, Frame.reference?, found]
      rfl
    rw [same, ← Reference.peek_eq]
    simp only [Handler.peekTarget, Handler.exec_bind, Handler.exec_code, Handler.andThen_ok, found]
    rfl
  · have same : frame.slot? target s =
        (Reference.member (frame.peek base) (frame.peek key)).slot? frame.scope s := by
      rw [Frame.slot?, Frame.reference?, found, first, second]
      rfl
    rw [same, ← Reference.peek_eq]
    simp only [Handler.peekTarget, Handler.exec_bind, Handler.exec_code, Handler.andThen_ok, found,
      Handler.exec_frame, Handler.exec_store, Handler.exec_pure, Handler.requiredChild, first,
      second]
    rfl

theorem exec_resolveTarget (writable : Handler.Target frame.code target)
    (distinct : (target :: frame.code.children target).Nodup) (s : Store σ) :
    ∃ frame', frame.Same frame' ∧ frame'.current = frame.current ∧
      match frame.slot? target s with
      | some slot => (Handler.resolveTarget target).exec ⟨frame, s⟩ = (.ok slot, ⟨frame', s⟩)
      | none => ∃ fault, (∀ e, fault ≠ .value e) ∧
        (Handler.resolveTarget target).exec ⟨frame, s⟩ =
          (.error (.uncaught fault), ⟨frame', s⟩) := by
  rcases writable with ⟨name, found⟩ | ⟨found, base, key, first, second⟩
  · refine ⟨frame, ⟨rfl, rfl, rfl⟩, rfl, ?_⟩
    simp only [Frame.slot?, Frame.reference?, found, Option.bind_some, Reference.slot?,
      Handler.resolveTarget, Handler.exec_bind, Handler.exec_code, Handler.andThen_ok,
      Handler.exec_frame]
    cases frame.scope with
    | object id => rfl
    | _ => exact ⟨_, by simp, rfl⟩
  · have one := List.mem_of_getElem? first
    have two := List.mem_of_getElem? second
    obtain ⟨outside, inside⟩ := List.nodup_cons.mp distinct
    -- The target, its base and its key are three nodes: taking one leaves what the others hold.
    have ne_base : base ≠ target := fun same => outside (same ▸ one)
    have ne_key : key ≠ target := fun same => outside (same ▸ two)
    have differ : key ≠ base := by
      rintro rfl
      have := (List.getElem?_inj (List.getElem?_eq_some_iff.mp first).1 inside).mp
        (first.trans second.symm)
      cases this
    refine ⟨((frame.discard target).discard base).discard key, ⟨rfl, rfl, rfl⟩, rfl, ?_⟩
    have peekBase : (frame.discard target).peek base = frame.peek base := by
      simp [Frame.peek, Frame.discard, NodeMap.find?_erase, ne_base]
    have peekKey : ((frame.discard target).discard base).peek key = frame.peek key := by
      simp [Frame.peek, Frame.discard, NodeMap.find?_erase, ne_key, differ]
    have code : (frame.discard target).code = frame.code := rfl
    have code' : ((frame.discard target).discard base).code = frame.code := rfl
    simp only [Frame.slot?, Frame.reference?, found, first, second, Option.bind_eq_bind,
      Option.bind_some, Reference.slot?, Handler.resolveTarget, Handler.exec_bind,
      Handler.exec_code, Handler.andThen_ok, Handler.exec_modifyFrame, Handler.requiredChild,
      Handler.exec_pure, Handler.exec_take, Handler.exec_store, code, code', peekBase, peekKey]
    cases frame.peek base with
    | object id => rfl
    | _ => exact ⟨_, by simp, rfl⟩

theorem exec_takeOperand_used (operand : Option Nat) (s : Store σ) :
    (Handler.takeOperand operand).exec ⟨frame, s⟩ =
      (.ok ((operand.map frame.used).getD .undefined),
        ⟨operand.elim frame fun o => (frame.discard o).discardConverted o, s⟩) := by
  cases operand with
  | none => rfl
  | some o => exact Handler.exec_takeConverted o _

/-- When there is nothing left to convert, an update writes to the slot that its target denotes. -/
theorem exec_applyUpdate_slot (writable : Handler.Target frame.code target)
    (distinct : (target :: frame.code.children target).Nodup) (host : Host σ) (u : UpdateOp)
    (givesOld : Bool) (operand : Option Nat) (behind : ∀ o ∈ operand, o ≠ frame.current)
    (apart : ∀ o ∈ operand, ∀ k ∈ frame.code.children target, k ≠ o) (s : Store σ) :
    ∃ frame', frame.Same frame' ∧ frame'.current = frame.current ∧
      match frame.slot? target s with
      | some slot =>
        (Handler.applyUpdate host u givesOld frame.current target operand).exec ⟨frame, s⟩ =
          match (host.update u (frame.settled target s frame.current)
            ((operand.map (frame.settled target s)).getD .undefined)).run s with
          | (.ok new, s') =>
            (.ok (.finish (if givesOld then frame.settled target s frame.current else new)),
              ⟨frame', slot.write s' new⟩)
          | (.error e, s') => (.error (.ofValueError e), ⟨frame', s'⟩)
      | none => ∃ fault, (∀ e, fault ≠ .value e) ∧
        (Handler.applyUpdate host u givesOld frame.current target operand).exec ⟨frame, s⟩ =
          (.error (.uncaught fault), ⟨frame', s⟩) := by
  -- The operand is taken first, and the target is found by none of what goes with it.
  let emptied := operand.elim frame fun o => (frame.discard o).discardConverted o
  have alike : frame.Same emptied ∧ emptied.current = frame.current ∧
      emptied.converted.find? frame.current = frame.converted.find? frame.current ∧
      (∀ k ∈ frame.code.children target, emptied.peek k = frame.peek k) ∧
      operand.map frame.used = operand.map (frame.settled target s) := by
    cases operand with
    | none => exact ⟨⟨rfl, rfl, rfl⟩, rfl, rfl, fun _ _ => rfl, rfl⟩
    | some o =>
      have behind := behind o rfl
      refine ⟨⟨rfl, rfl, rfl⟩, rfl, ?_, fun k member => ?_, ?_⟩
      · simp [emptied, Frame.discard, Frame.discardConverted, NodeMap.find?_erase, Ne.symm behind]
      · simp [emptied, Frame.peek, Frame.discard, Frame.discardConverted, NodeMap.find?_erase,
          apart o rfl k member]
      · simp [Frame.used, Frame.settled, Frame.combined, behind]
  obtain ⟨⟨kind, scope, code⟩, here, kept, peeks, used⟩ := alike
  -- Then what a hook has made of the old value goes, and the slot is found in what is left.
  let taken := emptied.discardConverted frame.current
  have code' : taken.code = frame.code := code
  have same : taken.slot? target s = frame.slot? target s :=
    Frame.slot?_congr frame taken code scope peeks s
  obtain ⟨frame', like, here', resolves⟩ := exec_resolveTarget taken (by rwa [code'])
    (by rwa [code']) s
  refine ⟨frame', ⟨like.kind.trans kind, like.scope.trans scope, like.code.trans code⟩,
    here'.trans here, ?_⟩
  simp only [Handler.applyUpdate, Handler.exec_bind, exec_takeOperand_used, Handler.andThen_ok,
    Handler.exec_frame, Handler.exec_modifyFrame]
  rw [show operand.elim frame (fun o => (frame.discard o).discardConverted o) = emptied from rfl,
    kept, used]
  rw [same] at resolves
  cases which : frame.slot? target s with
  | some slot =>
    have old : (frame.converted.find? frame.current).getD (slot.read s) =
        frame.settled target s frame.current := by
      rw [Frame.settled, Frame.combined, if_pos rfl, which]
      rfl
    simp only [which] at resolves
    rw [resolves]
    simp only [Handler.andThen_ok, Handler.exec_bind, Handler.exec_store, Handler.exec_act, old]
    rcases (host.update u (frame.settled target s frame.current)
      ((operand.map (frame.settled target s)).getD .undefined)).run s with ⟨e | new, s'⟩
    · rfl
    · rfl
  | none =>
    simp only [which] at resolves
    obtain ⟨fault, other, failed⟩ := resolves
    refine ⟨fault, other, ?_⟩
    rw [failed]
    rfl

end Target

theorem target_of_update? {frame : Frame} (poised : frame.Poised) {o : Operation} {u : UpdateOp}
    {target : Nat} {rest : List Nat}
    (found : frame.code.get? frame.current = some (.operation o)) (update : o.update? = some u)
    (whole : frame.code.children frame.current = target :: rest) :
    Handler.Target frame.code target := by
  obtain ⟨root, rooted, -⟩ := poised.rooted
  obtain ⟨node, parts, site⟩ := rooted.site poised.inside
  cases found.symm.trans site.get?
  obtain ⟨first, others, same, assignable⟩ :=
    Operation.assignable_of_fits site.fits (Operation.isAssignment_of_update? update)
  subst same
  obtain ⟨c, selected, member, there⟩ := site.child (i := 0) rfl
  rw [Outline.child, whole] at selected
  cases selected
  exact Handler.target_of_assignable poised member there assignable

namespace Updates

variable {frame : Frame} {op : BinaryOp} {target operand : Nat}
  (updates : Updates frame.code frame.current op target operand)
include updates

theorem inner {root : Statement} (rooted : frame.code.Rooted root) : frame.current ≠ 0 := by
  intro zero
  cases updates with
  | intro found =>
    rw [zero] at found
    cases rooted.get?_zero.symm.trans found

theorem increase {root : Statement} (rooted : frame.code.Rooted root) :
    frame.current < target ∧ target < operand ∧
      ∀ k ∈ frame.code.children target, target < k ∧ k < operand := by
  cases updates with
  | intro found update binary parts =>
    have increase := rooted.children_increase frame.current
    have first : target ∈ frame.code.children frame.current := by rw [parts]; simp
    have last : operand ∈ frame.code.children frame.current := by rw [parts]; simp
    rw [parts] at increase
    have less := List.rel_of_pairwise_cons increase List.mem_cons_self
    refine ⟨(rooted.child_bounds first).1, less, fun k member => ?_⟩
    have behind := rooted.stop_le_of_lt first last less
    have bounds := rooted.child_bounds member
    have := rooted.lt_stop (rooted.inside_of_mem (frame.code.inside_of_children member) member)
    omega

variable (poised : frame.Poised)
include poised

theorem writable : Handler.Target frame.code target := by
  cases updates with
  | intro found update binary whole => exact target_of_update? poised found update whole

omit poised in
theorem exec_assignment (host : Host σ) (s : Store σ) : ∃ u, u.binary? = some op ∧
    (Handler.node host frame.current).exec ⟨frame, s⟩ =
      Handler.andThen
        (Handler.descendOr (Handler.foldUpdate host u false frame.current target (some operand)))
        ((Handler.nextPart frame.current target (some operand)).exec ⟨frame, s⟩) := by
  cases updates with
  | @intro o u found update binary parts =>
    refine ⟨u, binary, ?_⟩
    have first : frame.code.child frame.current 0 = some target := by rw [Outline.child, parts]; rfl
    have second : frame.code.child frame.current 1 = some operand := by
      rw [Outline.child, parts]
      rfl
    have givesNew : (o == .postIncrement || o == .postDecrement) = false := by
      cases o <;> first | rfl | (cases update; cases binary)
    rw [exec_node s found, Setting.handle, Handler.operation_of_update? host update, givesNew]
    simp only [Handler.assignment, Handler.requiredChild, Handler.exec_bind, Handler.exec_code,
      Handler.andThen_ok, first, second, Handler.exec_pure]
    rfl

omit poised in
theorem operand_mem : operand ∈ frame.code.children frame.current := by
  cases updates with
  | intro found update binary parts => rw [parts]; simp

theorem exec_ready (host : Host σ)
    (ready : frame.previous = operand ∨ frame.previous = frame.current) (s : Store σ) :
    ∃ u, u.binary? = some op ∧
      (Handler.node host frame.current).exec ⟨frame, s⟩ =
        match (Fold.binary op frame.current operand).next? (frame.combined target s)
          frame.converted s with
        | some move => (.ok move, ⟨frame, s⟩)
        | none => (Handler.applyUpdate host u false frame.current target (some operand)).exec
            ⟨frame, s⟩ := by
  obtain ⟨root, rooted, -⟩ := poised.rooted
  obtain ⟨later, less, -⟩ := updates.increase rooted
  obtain ⟨u, binary, exec⟩ := updates.exec_assignment host s
  refine ⟨u, binary, ?_⟩
  -- There is no part left to enter, so the node folds.
  have folds : (Handler.nextPart frame.current target (some operand)).exec ⟨frame, s⟩ =
      (.ok none, ⟨frame, s⟩) := by
    rw [Handler.nextPart, Handler.exec_bind, Setting.exec_visitFolding]
    rcases Frame.met_ready poised (updates.inner rooted) updates.operand_mem ready with
      waited | resumed
    · rw [waited]
      rfl
    · rw [resumed, Handler.exec_ofExcept_ok, Handler.andThen_ok]
      simp only [if_neg (Nat.ne_of_gt less)]
      rfl
  have own : frame.combined target s frame.current = Slot.content (frame.slot? target s) s :=
    if_pos rfl
  have other : frame.combined target s operand = frame.peek operand := if_neg (by omega)
  rw [exec, folds, Handler.andThen_ok, Handler.descendOr,
    Handler.exec_foldUpdate u false _ _ _ _
      (exec_peekTarget_slot frame (updates.writable poised) s),
    Handler.updateOperands_of_binary? binary, ← own]
  simp only [Option.map_some, Option.getD_some]
  rw [← other]
  -- Where the operator does not work on numbers, there is nothing to ask hooks for.
  cases numeric : op.isNumericOn (frame.combined target s frame.current)
      (frame.combined target s operand) with
  | true =>
    have wanted : (Fold.binary op frame.current operand).conversion?
        (frame.combined target s) = some .toNumber := if_pos numeric
    have whole : [(frame.current, frame.combined target s frame.current),
        (operand, frame.combined target s operand)] =
        (Fold.binary op frame.current operand).operands.map fun k =>
          (k, frame.combined target s k) := rfl
    rw [if_pos rfl, whole]
    exact Handler.exec_afterHooks wanted
  | false =>
    have unwanted : (Fold.binary op frame.current operand).conversion?
        (frame.combined target s) = none := if_neg (by rw [numeric]; decide)
    rw [Fold.next?, unwanted]
    exact Handler.exec_afterHooks_none rfl _

theorem quiet_unready (unready : ¬ (frame.previous = operand ∨ frame.previous = frame.current))
    (s : Store σ) : (Handler.node host frame.current).Quiet ⟨frame, s⟩ := by
  obtain ⟨root, rooted, -⟩ := poised.rooted
  obtain ⟨u, binary, exec⟩ := updates.exec_assignment host s
  have goes : ∃ part, (Handler.nextPart frame.current target (some operand)).exec ⟨frame, s⟩ =
      (.ok (some part), ⟨frame, s⟩) := by
    rw [Handler.nextPart, Handler.exec_bind, Setting.exec_visitFolding]
    rcases Frame.met poised (updates.inner rooted) with ⟨same, -⟩ | ⟨below, resumed⟩ |
      ⟨-, -, entered⟩
    · exact absurd (.inr same) unready
    · rw [resumed, Handler.exec_ofExcept_ok, Handler.andThen_ok]
      have first : frame.previous = target := by
        cases updates with
        | intro found update binary parts =>
          rw [parts] at below
          exact (List.mem_pair.mp below).resolve_right fun last => unready (.inl last)
      simp only [if_pos first]
      exact ⟨operand, rfl⟩
    · rw [entered, Handler.exec_ofExcept_ok, Handler.andThen_ok]
      simp only [Handler.exec_bind, Handler.exec_code, Handler.andThen_ok, Handler.exec_ite]
      split
      · exact ⟨target, rfl⟩
      · exact ⟨operand, rfl⟩
  obtain ⟨part, goes⟩ := goes
  rw [goes] at exec
  exact ⟨_, _, exec, rfl⟩

/-- What an update writes: what the operator makes of the operands, or of what hooks have made of
them, to the slot that the target denotes when there is nothing left to convert. -/
theorem exec_applyUpdate (host : Host σ) {u : UpdateOp} (binary : u.binary? = some op)
    (s : Store σ) :
    ∃ frame', frame.Same frame' ∧ frame'.current = frame.current ∧
      match frame.slot? target s with
      | some slot =>
        (Handler.applyUpdate host u false frame.current target (some operand)).exec ⟨frame, s⟩ =
          match (host.binary op (frame.settled target s frame.current)
            (frame.settled target s operand)).run s with
          | (.ok new, s') => (.ok (.finish new), ⟨frame', slot.write s' new⟩)
          | (.error e, s') => (.error (.ofValueError e), ⟨frame', s'⟩)
      | none => ∃ fault, (∀ e, fault ≠ .value e) ∧
        (Handler.applyUpdate host u false frame.current target (some operand)).exec ⟨frame, s⟩ =
          (.error (.uncaught fault), ⟨frame', s⟩) := by
  obtain ⟨root, rooted, -⟩ := poised.rooted
  obtain ⟨later, less, parts⟩ := updates.increase rooted
  have distinct : (target :: frame.code.children target).Nodup :=
    List.nodup_cons.mpr ⟨fun own => Nat.lt_irrefl _ (parts target own).1,
      (rooted.children_increase target).imp Nat.ne_of_lt⟩
  obtain ⟨frame', same, here, written⟩ := exec_applyUpdate_slot frame (updates.writable poised)
    distinct host u false (some operand) (fun o is => by cases is; omega)
    (fun o is k member => by cases is; exact Nat.ne_of_lt (parts k member).2) s
  refine ⟨frame', same, here, ?_⟩
  rwa [Host.update_of_binary? binary] at written

omit updates poised

theorem settles {code : Code} {n : Nat} (updates : Updates code n op target operand) :
    Settles host code n (· = operand) (.binary op n operand) (Frame.combined target) where
  moved rooted := by
    rintro _ rfl
    cases updates with
    | intro found update binary parts =>
      exact Nat.ne_of_gt (rooted.child_bounds (by rw [parts]; simp)).1
  below rooted _ := by
    rintro rfl
    cases updates with
    | intro found => cases rooted.get?_zero.symm.trans found
  steady _ _ := rfl
  quiet same here poised unready s := by
    subst same here
    exact updates.quiet_unready poised unready s
  asks same here poised ready := by
    subst same here
    intro s move next
    obtain ⟨u, -, exec⟩ := updates.exec_ready poised host ready s
    rw [exec, next]
  done same here poised ready := by
    subst same here
    intro s done move run
    obtain ⟨u, binary, exec⟩ := updates.exec_ready poised host ready s
    rw [exec, done] at run
    obtain ⟨frame', -, -, written⟩ := updates.exec_applyUpdate poised host binary s
    split at written
    case h_1 slot which =>
      simp only [written] at run
      split at run
      · cases run
        rfl
      · cases run
    case h_2 =>
      obtain ⟨fault, -, failed⟩ := written
      simp only [failed] at run
      cases run

end Updates

/-! ## Updates of a machine -/

namespace Machine

section Step

variable {m : Machine σ} {frame : Frame} {below : List Frame} {op : BinaryOp}
  {target operand : Nat} (poised : frame.Poised) (stack : m.stack = frame :: below)
  (updates : Updates frame.code frame.current op target operand)
  (ready : frame.previous = operand ∨ frame.previous = frame.current)
  (done : (Fold.binary op frame.current operand).next? (frame.combined target m.store)
    frame.converted m.store = none)
include poised stack updates ready done

/-- Where nothing is left to convert, an update writes what the operator gives. -/
theorem step_of_update (host : Host σ) {slot : Slot}
    (which : frame.slot? target m.store = some slot) :
    match (host.binary op (frame.settled target m.store frame.current)
      (frame.settled target m.store operand)).run m.store with
    | (.ok new, s) => Goes frame below (slot.write s new) (step host m) (.finish new)
    | (.error e, _) => (step host m).1 = .error (.ofValueError e) := by
  obtain ⟨u, binary, exec⟩ := updates.exec_ready poised host ready m.store
  obtain ⟨frame', same, here, written⟩ := updates.exec_applyUpdate poised host binary m.store
  simp only [which] at written
  rw [done] at exec
  simp only [written] at exec
  obtain ⟨root, rooted, -⟩ := poised.rooted
  rcases run : (host.binary op (frame.settled target m.store frame.current)
    (frame.settled target m.store operand)).run m.store with ⟨e | new, s⟩
  · rw [run] at exec
    exact step_of_exec_error stack exec
  · rw [run] at exec
    exact goes_of_finish poised stack (updates.inner rooted) same here exec

theorem step_of_no_slot (which : frame.slot? target m.store = none) :
    ∃ fault, (∀ e, fault ≠ .value e) ∧ (step host m).1 = .error (.uncaught fault) := by
  obtain ⟨u, binary, exec⟩ := updates.exec_ready poised host ready m.store
  obtain ⟨frame', same, here, written⟩ := updates.exec_applyUpdate poised host binary m.store
  simp only [which] at written
  rw [done] at exec
  obtain ⟨fault, other, failed⟩ := written
  simp only [failed] at exec
  exact ⟨fault, other, step_of_exec_error stack exec⟩

end Step

/-- What an update does after the hooks `runs`, if none of them has changed the slot that its target
denotes, nor the value in it: what the binary operator does on `given`, the value in the slot and
the operand. -/
structure Updated (host : Host σ) (m : Machine σ) (op : BinaryOp) (operand : Nat) (slot : Slot)
    (frame : Frame) (below : List Frame) (given : Nat → Value) (runs : List (HookRun σ)) :
    Prop where
  protocol : (Fold.binary op frame.current operand).Protocol host (fun _ _ => given) m frame below
    runs
  value : m.AsksNothing host →
    match (host.binary op (HookRun.used runs given frame.current)
      (HookRun.used runs given operand)).run m.store with
    | (.ok new, s) => Goes frame below (slot.write s new) (step host m) (.finish new)
    | (.error e, _) => (step host m).1 = .error (.ofValueError e)
  trips : ∀ conversion, (step host m).1 = .error (.uncaught (.value (.scriptHook conversion))) →
    m.Grounded host ∨
        (∀ k ∈ (Fold.binary op frame.current operand).operands, m.store.Has (given k)) →
      (Fold.binary op frame.current operand).Trips host (HookRun.used runs given) m.store

end Machine

def Frame.Denotes (frame : Frame) (target : Nat) (s : Store σ) (slot : Slot) (v : Value) : Prop :=
  frame.slot? target s = some slot ∧ slot.read s = v

/-- What an update combines when its slot holds `v`. -/
def Frame.holding (frame : Frame) (v : Value) (k : Nat) : Value :=
  if k = frame.current then v else frame.peek k

theorem Frame.Denotes.combined {frame : Frame} {target : Nat} {s : Store σ} {slot : Slot}
    {v : Value} (denotes : frame.Denotes target s slot v) :
    frame.combined target s = frame.holding v := by
  funext k
  rw [Frame.combined, denotes.1, Frame.holding, Slot.content, Option.map_some, Option.getD_some,
    denotes.2]

namespace Machine

theorem Grounded.has_holding {m : Machine σ} (grounded : m.Grounded host) {frame : Frame}
    (member : frame ∈ m.stack) (slot : Slot) (k : Nat) :
    m.store.Has (frame.holding (slot.read m.store) k) := by
  unfold Frame.holding
  split
  · obtain ⟨held, base, n, sits⟩ := grounded.sits
    exact Store.has_of_within (sits.store.closed.lookup_getD slot.object slot.key)
  · exact grounded.has_peek member k

/-- How hooks of the program run in a machine at assignments that combine. -/
structure RunsUpdates (host : Host σ) (m : Machine σ) : Prop where
  kinds : ∀ frame ∈ m.stack, ∀ o u op, frame.code.get? frame.current = some (.operation o) →
    o.update? = some u → u.binary? = some op →
      ∃ target operand, Updates frame.code frame.current op target operand
  /-- Hooks have run since the operand was found finished, for the operands that were there when the
  node was met; and if these have been the same all the time, the update is one of its slot. -/
  updated : ∀ frame below op target operand, m.stack = frame :: below →
    Updates frame.code frame.current op target operand →
    frame.Ready (.binary op frame.current operand) →
      ∃ m₀ runs, Driven host m₀ ∧
        m₀.stack = frame.atFirst (.binary op frame.current operand) :: below ∧
        Settling host m₀ runs m ∧
        (Fold.binary op frame.current operand).Protocol host (Frame.combined target) m frame below
          runs ∧
        ∀ slot v, (∀ run ∈ runs, frame.Denotes target run.store slot v) →
          frame.Denotes target m.store slot v →
            m.Updated host op operand slot frame below (frame.holding v) runs
  /-- An update of what is no slot fails, and not over a hook. -/
  slotless : ∀ frame below op target operand, m.stack = frame :: below →
    Updates frame.code frame.current op target operand →
    frame.Ready (.binary op frame.current operand) → m.AsksNothing host →
    frame.slot? target m.store = none →
      ∃ fault, (∀ e, fault ≠ .value e) ∧ (step host m).1 = .error (.uncaught fault)
  unready : ∀ frame below op target operand, m.stack = frame :: below →
    Updates frame.code frame.current op target operand →
    ¬ frame.Ready (.binary op frame.current operand) → ∀ conversion,
      (step host m).1 ≠ .error (.uncaught (.value (.scriptHook conversion)))
  results : m.ConvertsResults host

section Updated

variable {m : Machine σ} {frame : Frame} {below : List Frame} {op : BinaryOp}
  {target operand : Nat} (poised : frame.Poised) (stack : m.stack = frame :: below)
  (updates : Updates frame.code frame.current op target operand)
  (ready : frame.Ready (.binary op frame.current operand))
include poised stack updates ready

theorem updated_of_protocol (gentle : host.Gentle) {runs : List (HookRun σ)}
    (protocol : (Fold.binary op frame.current operand).Protocol host (Frame.combined target) m frame
      below runs) {slot : Slot} {v : Value}
    (steady : ∀ run ∈ runs, frame.Denotes target run.store slot v)
    (denotes : frame.Denotes target m.store slot v) :
    m.Updated host op operand slot frame below (frame.holding v) runs := by
  -- All the runs find the same slot with the same content, so it can be held fixed.
  have settled (k : Nat) :
      frame.settled target m.store k = HookRun.used runs (frame.holding v) k := by
    rw [Frame.settled, protocol.kept, denotes.combined, HookRun.used]
  have hooked : (Fold.binary op frame.current operand).Hooked (fun _ _ => frame.holding v)
      (frame.atFirst (.binary op frame.current operand)) frame runs := by
    refine ⟨protocol.same, protocol.once, protocol.kept, fun run member => ?_, protocol.primitive⟩
    have wants := protocol.wanted run member
    rw [show Frame.combined target (frame.atFirst _) run.store = frame.combined target run.store
      from rfl, (steady run member).combined] at wants
    exact wants
  have same : frame.combined target m.store = frame.holding v := denotes.combined
  have done (nothing : m.AsksNothing host) :=
    next?_of_asks_nothing poised stack updates.settles ready nothing
  refine ⟨⟨hooked, fun k conversion hook asks => ?_, fun nothing => ?_⟩, fun nothing => ?_,
    fun conversion failed grounds => ?_⟩
  · rw [← same]
    exact protocol.asked k conversion hook asks
  · rw [← same]
    exact protocol.complete nothing
  · rw [← settled, ← settled]
    exact step_of_update poised stack updates ready (done nothing) host denotes.1
  · have present (k : Nat) (member : k ∈ (Fold.binary op frame.current operand).operands) :
        m.store.Has (frame.holding v k) :=
      grounds.elim (fun grounded => denotes.2 ▸ grounded.has_holding
        (stack ▸ List.mem_cons_self) slot k) (· k member)
    have nothing := asksNothing_of_scriptHook poised stack updates.settles failed
    have step := step_of_update poised stack updates ready (done nothing) host denotes.1
    rw [settled, settled] at step
    rcases run : (host.binary op (HookRun.used runs (frame.holding v) frame.current)
      (HookRun.used runs (frame.holding v) operand)).run m.store with ⟨e | new, s⟩
    · simp only [run] at step
      cases EvalError.eq_of_ofValueError (Except.error.inj (step.symm.trans failed))
      have fails : ((Fold.binary op frame.current operand).outcome host (frame.holding v)
          (HookRun.used runs (frame.holding v))).run m.store =
            (.error (.scriptHook conversion), s) := by
        rw [Fold.outcome, Act.run_bind, run]
      rw [same] at done
      exact hooked.trips gentle (done nothing) (fun _ _ => rfl) present fails
    · simp only [run] at step
      cases step.1.symm.trans failed

end Updated

/-- Where no hook changes what an update works on, the update does to its slot what the operator
does to the value in it and the operand. -/
theorem runsUpdates_of_driven (keeps : host.Keeps) (gentle : host.Gentle) {m : Machine σ}
    (driven : Driven host m) : m.RunsUpdates host := by
  have orderly := orderly_of_reachable keeps driven.reachable
  have poised {frame : Frame} {below : List Frame} (stack : m.stack = frame :: below) :
      frame.Poised := (orderly.tidy frame (by rw [stack]; exact List.mem_cons_self)).poised
  refine ⟨fun frame member o u op found update binary => ?_,
    fun frame below op target operand stack updates ready => ?_,
    fun frame below op target operand stack updates ready nothing =>
      step_of_no_slot (poised stack) stack updates ready
        (next?_of_asks_nothing (poised stack) stack updates.settles ready nothing),
    fun frame below op target operand stack updates unready => ne_scriptHook_of_quiet stack
      (updates.quiet_unready (poised stack) unready m.store), orderly.convertsResults⟩
  · have poised := (orderly.tidy frame member).poised
    obtain ⟨root, rooted, -⟩ := poised.rooted
    obtain ⟨node, parts, site⟩ := rooted.site poised.inside
    cases site.get?.symm.trans found
    exact site.exists_updates update binary
  · obtain ⟨m₀, runs, driven₀, began, settling, protocol⟩ :=
      driven.protocol keeps stack updates.settles ready
    exact ⟨m₀, runs, driven₀, began, settling, protocol, fun slot v steady denotes =>
      updated_of_protocol (poised stack) stack updates ready gentle protocol steady denotes⟩

/-- The hook of the operand has run, and the next step writes to the slot. -/
theorem runsUpdates_of_driven_sum :
    let source := "var o = \x7bx: null\x7d; o.x += \x7bto_double: function () \x7breturn;\x7d\x7d;"
    let code := Outline.ofRose (.node (.statement .unit) [
      .node (.statement .expression) [.node (.declare "o") [
        .node (.operation .objectLiteral) [.leaf (.literal (.string "x")),
          .node (.operation .grouping) [.leaf (.literal .null)]]]],
      .node (.statement .expression) [.node (.operation .addAssign) [
        .node (.operation .member) [.leaf (.use "o"), .leaf (.literal (.string "x"))],
        Bare.hooked]]])
    let m := Bare.after code 31
    let holdsNull (m : Machine Unit) := (m.store.lookup 1 "x").any (·.strictEquals .null)
    parse source = .ok code ∧
      Bare.host.Keeps ∧ Bare.host.Gentle ∧ Driven Bare.host m ∧ m.Grounded Bare.host ∧
      m.stack.map (fun frame => (frame.current, (frame.converted.find? 12).isSome)) = [(8, true)] ∧
      holdsNull m = true ∧ holdsNull (step Bare.host m).2 = false ∧ m.RunsUpdates Bare.host := by
  intro source code m holdsNull
  have parsed : parse source = .ok code := by cbv
  have driven : Driven Bare.host m := driven_after parsed 31
  have grounded : m.Grounded Bare.host := Bare.grounded_after parsed 31
  refine ⟨parsed, Bare.keeps, Bare.gentle, driven, grounded, ?_, ?_, ?_,
    runsUpdates_of_driven Bare.keeps Bare.gentle driven⟩
  · decide +kernel
  · decide +kernel
  · decide +kernel

end Machine

end StepScript
