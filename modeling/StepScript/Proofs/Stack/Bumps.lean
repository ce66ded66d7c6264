import StepScript.Proofs.Machine.Chains
import StepScript.Proofs.Stack.Updates

/-! Steps by one that give what was there.

`target++` and `target--` have no operand, only an old value, and what that is gets
looked at anew each time that the node is met. At most one hook of the program runs
for it. Without one, the node gives what its slot holds, also where a hook of the
host turns that into a number. But what a hook of the program has given takes the
place of the old value: the node counts on from it, and gives it too.
-/

set_option autoImplicit false

namespace StepScript

variable {σ : Type} {host : Host σ}

def Operation.bump? : Operation → Option (Float → Float)
  | postIncrement => some (· + 1.0)
  | postDecrement => some (· - 1.0)
  | _ => none

inductive Bumps (code : Code) (n : Nat) (bump : Float → Float) (target : Nat) : Prop where
  | intro {o : Operation} (found : code.get? n = some (.operation o)) (bumps : o.bump? = some bump)
    (parts : code.children n = [target])

theorem Site.exists_bumps {code : Code} {n : Nat} {o : Operation} {parts : List Node}
    (site : Site code n (.operation o) parts) {bump : Float → Float} (bumps : o.bump? = some bump) :
    ∃ target, Bumps code n bump target := by
  have arity : o.arity? = some 1 := by
    cases o <;> cases bumps <;> rfl
  have lengths : (code.children n).length = 1 := by
    rw [← Operation.length_of_fits site.fits arity]
    simpa using congrArg List.length site.children
  obtain ⟨target, whole⟩ := List.length_eq_one_iff.mp lengths
  exact ⟨target, .intro site.get? bumps whole⟩

/-! ## Slots that are there -/

namespace Slot

variable {slot : Slot} {s : Store σ}

theorem read_write (inside : slot.object < s.objects.size) (value : Value) :
    slot.read (slot.write s value) = value := by
  have own : (slot.write s value).own? slot.object slot.key = some value :=
    Store.own?_insert inside
  have first := Store.owner?_of_own? (Option.isSome_of_eq_some own)
  rw [read, Store.lookup, first, Option.bind_some, own, Option.getD_some]

end Slot

theorem Frame.Within.slot {frame : Frame} {s : Store σ} (within : frame.Within s.objects.size)
    {target : Nat} {slot : Slot} (which : frame.slot? target s = some slot) :
    slot.object < s.objects.size := by
  obtain ⟨reference, refers, which⟩ := Option.bind_eq_some_iff.mp which
  -- A name is bound in the scope or above it, and a member belongs to its base.
  cases reference with
  | binding name =>
    have scope := within.scope
    cases same : frame.scope with
    | object id =>
      rw [same] at which scope
      cases which
      cases found : s.owner? id name with
      | none =>
        rw [Slot.ofBinding, found]
        exact scope
      | some o => simpa [Slot.ofBinding, found] using Store.lt_of_own? (Store.own?_of_ownerWithin found)
    | _ => rw [same] at which; cases which
  | member base key =>
    have object : base.Within s.objects.size := by
      unfold Frame.reference? at refers
      split at refers
      · cases refers
      · obtain ⟨base, -, refers⟩ := Option.bind_eq_some_iff.mp refers
        obtain ⟨key, -, refers⟩ := Option.bind_eq_some_iff.mp refers
        cases refers
        exact within.peek base
      · cases refers
    cases base with
    | object id =>
      cases which
      exact object
    | _ => cases which

/-! ## The handler of a step by one -/

namespace Bumps

/-- Where the node `n` is met from when its target is finished; a variable is not entered. -/
def After (code : Code) (n target : Nat) (p : Nat) : Prop :=
  p ≠ n ∧ (code.get? target = some (.operation .member) → p = target)

variable {frame : Frame} {bump : Float → Float} {target : Nat}
  (bumps : Bumps frame.code frame.current bump target)
include bumps

theorem inner {root : Statement} (rooted : frame.code.Rooted root) : frame.current ≠ 0 := by
  intro zero
  cases bumps with
  | intro found =>
    rw [zero] at found
    cases rooted.get?_zero.symm.trans found

theorem mem_children {k : Nat} : k ∈ frame.code.children frame.current ↔ k = target := by
  cases bumps with
  | intro found bumps parts => rw [parts, List.mem_singleton]

variable (poised : frame.Poised)
include poised

theorem writable : Handler.Target frame.code target := by
  cases bumps with
  | @intro o found bumps whole =>
    have update : ∃ u, o.update? = some u := by
      cases o <;> cases bumps <;> exact ⟨_, rfl⟩
    exact target_of_update? poised found update.choose_spec whole

omit poised in
theorem exec_assignment (host : Host σ) (s : Store σ) :
    ∃ u, (∀ n current, Handler.updateOperands u n current none .undefined = [(n, current)]) ∧
      (∀ old, host.update u old .undefined =
        host.toNumber old >>= fun x => pure (.number (bump x))) ∧
      (Handler.node host frame.current).exec ⟨frame, s⟩ =
        Handler.andThen
          (Handler.descendOr (Handler.foldUpdate host u true frame.current target none))
          ((Handler.nextPart frame.current target none).exec ⟨frame, s⟩) := by
  cases bumps with
  | @intro o found bumps parts =>
    have first : frame.code.child frame.current 0 = some target := by rw [Outline.child, parts]; rfl
    have second : frame.code.child frame.current 1 = none := by rw [Outline.child, parts]; rfl
    have exec {u : UpdateOp} (update : o.update? = some u)
        (givesOld : (o == .postIncrement || o == .postDecrement) = true) :
        (Handler.node host frame.current).exec ⟨frame, s⟩ =
          Handler.andThen
            (Handler.descendOr (Handler.foldUpdate host u true frame.current target none))
            ((Handler.nextPart frame.current target none).exec ⟨frame, s⟩) := by
      rw [exec_node s found, Setting.handle, Handler.operation_of_update? host update, givesOld]
      simp only [Handler.assignment, Handler.requiredChild, Handler.exec_bind, Handler.exec_code,
        Handler.andThen_ok, first, second, Handler.exec_pure]
      rfl
    cases o <;> cases bumps
    case intro.postIncrement => exact ⟨.increment, fun _ _ => rfl, fun _ => rfl, exec rfl rfl⟩
    case intro.postDecrement => exact ⟨.decrement, fun _ _ => rfl, fun _ => rfl, exec rfl rfl⟩

theorem exec_unready (host : Host σ) (s : Store σ)
    (unready : ¬ frame.MetFrom (After frame.code frame.current target)) :
    (Handler.node host frame.current).exec ⟨frame, s⟩ = (.ok (.descend target), ⟨frame, s⟩) := by
  obtain ⟨root, rooted, -⟩ := poised.rooted
  obtain ⟨u, -, -, exec⟩ := bumps.exec_assignment host s
  have goes : (Handler.nextPart frame.current target none).exec ⟨frame, s⟩ =
      (.ok (some target), ⟨frame, s⟩) := by
    rw [Handler.nextPart, Handler.exec_bind, Setting.exec_visitFolding]
    rcases Frame.met poised (bumps.inner rooted) with ⟨same, -⟩ | ⟨below, -⟩ |
      ⟨moved, -, entered⟩
    · exact absurd (.inr same) unready
    · have after : After frame.code frame.current target frame.previous :=
        ⟨Nat.ne_of_gt (rooted.child_bounds below).1, fun _ => bumps.mem_children.mp below⟩
      exact absurd (.inl after) unready
    · have member : frame.code.get? target = some (.operation .member) := by
        by_contra other
        exact unready (.inl ⟨moved, fun member => absurd member other⟩)
      rw [entered, Handler.exec_ofExcept_ok, Handler.andThen_ok]
      simp only [Handler.exec_bind, Handler.exec_code, Handler.andThen_ok, member]
      rfl
  rw [exec, goes]
  rfl

theorem exec_ready (host : Host σ) (s : Store σ)
    (ready : frame.MetFrom (After frame.code frame.current target)) :
    ∃ u, (∀ old, host.update u old .undefined =
        host.toNumber old >>= fun x => pure (.number (bump x))) ∧
      (Handler.node host frame.current).exec ⟨frame, s⟩ =
        match (Fold.unary .plus frame.current).next? (frame.combined target s) frame.converted s with
        | some move => (.ok move, ⟨frame, s⟩)
        | none => (Handler.applyUpdate host u true frame.current target none).exec ⟨frame, s⟩ := by
  obtain ⟨root, rooted, -⟩ := poised.rooted
  obtain ⟨u, operands, updates, exec⟩ := bumps.exec_assignment host s
  refine ⟨u, updates, ?_⟩
  -- A member has been entered and is met again from there; a variable is not entered at all.
  have folds : (Handler.nextPart frame.current target none).exec ⟨frame, s⟩ =
      (.ok none, ⟨frame, s⟩) := by
    rw [Handler.nextPart, Handler.exec_bind, Setting.exec_visitFolding]
    rcases Frame.met poised (bumps.inner rooted) with ⟨-, waited⟩ | ⟨below, resumed⟩ |
      ⟨moved, outside, entered⟩
    · rw [waited]
      rfl
    · rw [resumed, Handler.exec_ofExcept_ok, Handler.andThen_ok]
      simp only [if_pos (bumps.mem_children.mp below)]
      rfl
    · have plain : ((frame.code.get? target).map (·.isOperation .member)).getD false = false := by
        rcases bumps.writable poised with ⟨name, found⟩ | ⟨found, -⟩
        · rw [found]
          rfl
        · rcases ready with after | same
          · exact absurd (bumps.mem_children.mpr (after.2 found)) outside
          · exact absurd same moved
      rw [entered, Handler.exec_ofExcept_ok, Handler.andThen_ok]
      simp only [Handler.exec_bind, Handler.exec_code, Handler.andThen_ok, plain]
      rfl
  have old : Slot.content (frame.slot? target s) s = frame.combined target s frame.current :=
    (if_pos rfl).symm
  have wanted : (Fold.unary .plus frame.current).conversion? (frame.combined target s) =
      some .toNumber := rfl
  have whole : [(frame.current, frame.combined target s frame.current)] =
      (Fold.unary .plus frame.current).operands.map fun k => (k, frame.combined target s k) := rfl
  rw [exec, folds, Handler.andThen_ok, Handler.descendOr,
    Handler.exec_foldUpdate u true _ _ _ _
      (exec_peekTarget_slot frame (bumps.writable poised) s)]
  simp only [Option.map_none, Option.getD_none, operands, old]
  rw [whole]
  exact Handler.exec_afterHooks wanted

theorem exec_applyUpdate {u : UpdateOp}
    (updates : ∀ old, host.update u old .undefined =
      host.toNumber old >>= fun x => pure (.number (bump x))) (s : Store σ) :
    ∃ frame', frame.Same frame' ∧ frame'.current = frame.current ∧
      match frame.slot? target s with
      | some slot =>
        (Handler.applyUpdate host u true frame.current target none).exec ⟨frame, s⟩ =
          match (host.toNumber (frame.settled target s frame.current)).run s with
          | (.ok x, s') => (.ok (.finish (frame.settled target s frame.current)),
              ⟨frame', slot.write s' (.number (bump x))⟩)
          | (.error e, s') => (.error (.ofValueError e), ⟨frame', s'⟩)
      | none => ∃ fault, (∀ e, fault ≠ .value e) ∧
        (Handler.applyUpdate host u true frame.current target none).exec ⟨frame, s⟩ =
          (.error (.uncaught fault), ⟨frame', s⟩) := by
  obtain ⟨root, rooted, -⟩ := poised.rooted
  have distinct : (target :: frame.code.children target).Nodup :=
    List.nodup_cons.mpr ⟨fun own => Nat.lt_irrefl _ (rooted.child_bounds own).1,
      (rooted.children_increase target).imp Nat.ne_of_lt⟩
  obtain ⟨frame', same, here, written⟩ := exec_applyUpdate_slot frame (bumps.writable poised)
    distinct host u true none (fun _ is => nomatch is) (fun _ is => nomatch is) s
  refine ⟨frame', same, here, ?_⟩
  cases which : frame.slot? target s with
  | none => simpa only [which] using written
  | some slot =>
    simp only [which, Option.map_none, Option.getD_none, updates, Act.run_bind] at written ⊢
    rw [written]
    rcases (host.toNumber (frame.settled target s frame.current)).run s with ⟨e | x, s'⟩
    · rfl
    · rfl

omit bumps poised

theorem settles {code : Code} {n : Nat} (bumps : Bumps code n bump target) :
    Settles host code n (After code n target) (.unary .plus n) (Frame.combined target) where
  moved _ _ met := met.1
  below rooted _ := by
    rintro rfl
    cases bumps with
    | intro found => cases rooted.get?_zero.symm.trans found
  steady _ _ := rfl
  quiet same here poised unready s := by
    subst same here
    exact ⟨_, _, bumps.exec_unready poised host s unready, rfl⟩
  asks same here poised ready := by
    subst same here
    intro s move next
    obtain ⟨u, -, exec⟩ := bumps.exec_ready poised host s ready
    rw [exec, next]
  done same here poised ready := by
    subst same here
    intro s done move run
    obtain ⟨u, updates, exec⟩ := bumps.exec_ready poised host s ready
    rw [exec, done] at run
    obtain ⟨frame', -, -, written⟩ := bumps.exec_applyUpdate poised updates s
    split at written
    case h_1 slot which =>
      simp only [written] at run
      split at run
      · cases run
        rfl
      · cases run
    case h_2 =>
      obtain ⟨fault, -, failed⟩ := written
      simp only [failed] at run
      cases run

end Bumps

namespace Machine

def Gives (host : Host σ) (m : Machine σ) (value : Value) : Prop :=
  ∃ frame below, m.stack = frame :: below ∧
    ((Handler.node host frame.current).run ⟨frame, m.store⟩).1 = .ok (.finish value)

section Step

variable {m : Machine σ} {frame : Frame} {below : List Frame} {bump : Float → Float}
  {target : Nat} (poised : frame.Poised) (stack : m.stack = frame :: below)
  (bumps : Bumps frame.code frame.current bump target) {value : Value}
  (gives : m.Gives host value)
include poised stack bumps gives

theorem ready_of_gives : frame.MetFrom (Bumps.After frame.code frame.current target) ∧
    (Fold.unary .plus frame.current).next? (frame.combined target m.store) frame.converted
      m.store = none := by
  obtain ⟨_, _, stack', run⟩ := gives
  cases stack.symm.trans stack'
  by_cases ready : frame.MetFrom (Bumps.After frame.code frame.current target)
  · refine ⟨ready, ?_⟩
    cases next : (Fold.unary .plus frame.current).next? (frame.combined target m.store)
      frame.converted m.store with
    | none => rfl
    | some move =>
      have settles : Settles host frame.code frame.current _ _ _ := bumps.settles
      have asked := settles.asks rfl rfl poised ready next
      rw [Handler.exec] at asked
      rw [asked] at run
      obtain ⟨_, _, _, rfl, -⟩ := Fold.eq_some_of_next? next
      cases run
  · have descends := bumps.exec_unready poised host m.store ready
    rw [Handler.exec] at descends
    rw [descends] at run
    cases run

/-- The step gives what a hook has made of the old value, or the old value, and counts on from
that. -/
theorem step_of_bumps : ∃ slot x s, frame.slot? target m.store = some slot ∧
    value = frame.settled target m.store frame.current ∧
    (host.toNumber value).run m.store = (.ok x, s) ∧
    Goes frame below (slot.write s (.number (bump x))) (step host m) (.finish value) := by
  obtain ⟨ready, done⟩ := ready_of_gives poised stack bumps gives
  obtain ⟨root, rooted, -⟩ := poised.rooted
  obtain ⟨u, updates, exec⟩ := bumps.exec_ready poised host m.store ready
  obtain ⟨frame', same, here, written⟩ := bumps.exec_applyUpdate poised updates m.store
  obtain ⟨_, _, stack', run⟩ := gives
  cases stack.symm.trans stack'
  simp only [done] at exec
  have run : ((Handler.node host frame.current).exec ⟨frame, m.store⟩).1 = .ok (.finish value) :=
    run
  cases which : frame.slot? target m.store with
  | none =>
    simp only [which] at written
    obtain ⟨fault, -, failed⟩ := written
    rw [exec, failed] at run
    cases run
  | some slot =>
    simp only [which] at written
    rcases ran : (host.toNumber (frame.settled target m.store frame.current)).run m.store with
      ⟨e | x, s⟩
    · rw [exec, written, ran] at run
      cases run
    · rw [ran] at written
      rw [exec, written] at run
      cases run
      exact ⟨slot, x, s, rfl, rfl, ran, goes_of_finish poised stack (bumps.inner rooted) same here
        (exec.trans written)⟩

end Step

theorem Settling.converted {m m' : Machine σ} {runs : List (HookRun σ)}
    (settling : Settling host m runs m') : ∀ run ∈ runs, ∃ s s',
      (host.convert run.conversion run.result).run s = (.ok run.coerced, s') := by
  induction settling with
  | start => exact List.forall_mem_nil _
  | rest before turn still ih => exact ih
  | hook before asks begins inside returns ends coerces ih =>
    exact List.forall_mem_append.mpr ⟨ih, List.forall_mem_singleton.mpr ⟨_, _, coerces⟩⟩

end Machine

/-- A hook of the program has run for what the target denoted, and its result has become `x`. -/
structure HookRun.Gave (host : Host σ) (frame : Frame) (target : Nat) (run : HookRun σ)
    (x : Float) : Prop where
  asked : ∃ slot old id, frame.Denotes target run.store slot old ∧
    run.store.scriptHook? old Conversion.toNumber.hook = some id ∧ run.hook = run.store.closure id
  gave : ∃ s s', (host.toNumber run.result).run s = (.ok x, s')

namespace Bumps

variable {frame : Frame} {bump : Float → Float} {target : Nat} {runs : List (HookRun σ)} {p : Nat}
  (hooked : (Fold.unary .plus frame.current).Hooked (Frame.combined target) (frame.asMet p) frame
    runs)
include hooked

/-- At most one hook runs for a step by one, and that is for the old value. -/
theorem runs_cases : runs = [] ∨ ∃ run, runs = [run] ∧ run.operand = frame.current := by
  have own (run : HookRun σ) (member : run ∈ runs) : run.operand = frame.current :=
    List.mem_singleton.mp (hooked.wanted run member).1
  rcases runs with _ | ⟨run, _ | ⟨second, rest⟩⟩
  · exact .inl rfl
  · exact .inr ⟨run, rfl, own run List.mem_cons_self⟩
  · have twice : run.operand = second.operand :=
      (own run List.mem_cons_self).trans (own second (by simp)).symm
    have once := hooked.once
    simp [twice] at once

theorem gave_of_mem {run : HookRun σ} (member : run ∈ runs)
    (converted : ∃ s s', (host.convert run.conversion run.result).run s = (.ok run.coerced, s')) :
    ∃ x, run.Gave host frame target x ∧ run.coerced = .number x := by
  obtain ⟨own, wanted, id, some, hook⟩ := hooked.wanted run member
  have own : run.operand = frame.current := List.mem_singleton.mp own
  have wanted : run.conversion = .toNumber := (Option.some.inj wanted).symm
  obtain ⟨s, s', converts⟩ := converted
  rw [wanted] at some converts
  have content : (frame.asMet p).combined target run.store run.operand =
      Slot.content (frame.slot? target run.store) run.store := if_pos own
  rw [content] at some
  cases which : frame.slot? target run.store with
  | none =>
    rw [which] at some
    cases some
  | some slot =>
    rw [which] at some
    rw [Host.convert, map_eq_pure_bind, Act.run_bind] at converts
    rcases number : (host.toNumber run.result).run s with ⟨e | x, after⟩
    · rw [number] at converts
      cases converts
    · rw [number] at converts
      obtain ⟨same, rfl⟩ := Prod.mk.inj converts
      exact ⟨x, ⟨⟨slot, _, id, ⟨which, rfl⟩, some, hook⟩, s, after, number⟩,
        (Except.ok.inj same).symm⟩

end Bumps

namespace Machine

/-- The running node has given `old`, and its slot holds the number next to the one that `old` was
made into. Where the hooks of the host leave the slot alone, it is written to as it was. -/
def Bumped (host : Host σ) (m : Machine σ) (bump : Float → Float) (slot : Slot) (frame : Frame)
    (below : List Frame) (old : Value) : Prop :=
  ∃ x s, (host.toNumber old).run m.store = (.ok x, s) ∧
    ((∀ f s, slot.read ((host.call f []).run s).2 = slot.read s) →
      slot.read s = slot.read m.store) ∧
    Goes frame below (slot.write s (.number (bump x))) (step host m) (.finish old) ∧
    slot.read (step host m).2.store = .number (bump x)

/-- What the steps by one in a machine give: what their slot holds, or the number that the hook of
that has given. -/
structure GivesOld (host : Host σ) (m : Machine σ) : Prop where
  kinds : ∀ frame ∈ m.stack, ∀ o bump, frame.code.get? frame.current = some (.operation o) →
    o.bump? = some bump → ∃ target, Bumps frame.code frame.current bump target
  bumped : ∀ frame below bump target value, m.stack = frame :: below →
    Bumps frame.code frame.current bump target → m.Gives host value →
      ∃ m₀ p runs slot, Driven host m₀ ∧ Bumps.After frame.code frame.current target p ∧
        m₀.stack = frame.asMet p :: below ∧ Settling host m₀ runs m ∧
        frame.slot? target m.store = some slot ∧ m.Bumped host bump slot frame below value ∧
        (runs = [] ∧ value = slot.read m.store ∧
            m.store.scriptHook? value Conversion.toNumber.hook = none ∨
          ∃ run x, runs = [run] ∧ run.Gave host frame target x ∧ value = .number x)

section Given

variable {held : σ → Value → Prop} {base : Store σ} {m : Machine σ} {frame : Frame}
  {below : List Frame} {bump : Float → Float} {target : Nat}

theorem bumped_of_gives (faithful : host.Faithful held) {n : Nat} (sits : m.Sits held base n)
    (poised : frame.Poised) (stack : m.stack = frame :: below)
    (bumps : Bumps frame.code frame.current bump target) {value : Value}
    (gives : m.Gives host value) :
    ∃ slot, frame.slot? target m.store = some slot ∧
      value = frame.settled target m.store frame.current ∧
      m.Bumped host bump slot frame below value := by
  obtain ⟨slot, x, s, which, same, number, goes⟩ := step_of_bumps poised stack bumps gives
  refine ⟨slot, which, same, x, s, number, fun alone => ?_, goes, ?_⟩
  · have stays : Leads (fun _ (s : Store σ) => slot.read s = slot.read m.store) 0
        (host.toNumber value) fun _ _ => True :=
      Host.leads_toNumber (fun n f s before => ⟨n, Nat.le_refl n, (alone f s).trans before,
        fun _ _ => trivial⟩) value
    obtain ⟨-, -, after, -⟩ := stays m.store rfl
    rwa [number] at after
  · obtain ⟨within, -⟩ := sits.running stack
    have inside : slot.object < m.store.objects.size := (sits.store.size ▸ within).slot which
    obtain ⟨k, le, follows, -⟩ :=
      Host.leads_toNumber (faithful.hooks base) value m.store sits.store
    rw [number] at follows
    have inside : slot.object < s.objects.size := by
      rw [follows.size]
      rw [sits.store.size] at inside
      exact Nat.lt_of_lt_of_le inside le
    rw [goes.2.1]
    exact Slot.read_write inside _

end Given

end Machine

/-! ## An object with a hook of the program

`x` holds an object, and the hook of that gives `given`. -/

namespace Boxed

def natives : Host Unit :=
  ⟨fun _ _ => pure .undefined⟩

variable (given : Float)

def hook : Rose Node :=
  .node (.statement .block) [.node (.statement .ret) [.leaf (.literal (.number given))]]

def store : Store Unit :=
  ⟨#[⟨.null, [("x", .object 1)]⟩, ⟨.null, [("to_double", .function (.script 0))]⟩],
    #[⟨none, [], .ofRose (hook given), .object 0⟩], #[], ()⟩

def code : Code :=
  .ofRose (.node (.statement .unit) [.node (.statement .expression)
    [.node (.operation .postIncrement) [.leaf (.use "x")]]])

def begun : Machine Unit :=
  (Machine.start (store given) (.object 0) 512).feed code

def frame : Frame :=
  ⟨.topLevel, .object 0, code, 2, 2, .empty, NodeMap.empty.insert 2 (.number given)⟩

def ready : Machine Unit :=
  { begun given with
    pending := [], stack := [frame given],
    store := { store given with objects := (store given).objects.push ⟨.object 0, []⟩ } }

theorem keeps : natives.Keeps :=
  fun _ _ => .pure _

theorem faithful : natives.Faithful fun _ _ => False :=
  .of_leads fun _ _ _ _ _ => .pure trivial

theorem closed : (store given).Closed fun _ _ => False where
  objects := by
    intro object member
    rcases List.mem_pair.mp (List.mem_toArray.mp member) with rfl | rfl
    · exact ⟨trivial, List.forall_mem_singleton.mpr Nat.one_lt_two⟩
    · exact ⟨trivial, List.forall_mem_singleton.mpr trivial⟩
  closures := by
    intro closure member
    rw [List.mem_singleton.mp (List.mem_toArray.mp member)]
    refine ⟨Nat.zero_lt_two, fun entry inside => ?_⟩
    have inside : entry ∈ ([_, _, _] : List (Entry Node)) := inside
    simp only [List.mem_cons, List.not_mem_nil, or_false] at inside
    rcases inside with rfl | rfl | rfl
    · trivial
    · trivial
    · trivial
  host _ nothing := nothing.elim

theorem bodies : (store given).Bodies := by
  have shaped : Shaped (hook given) :=
    .node rfl (List.forall_mem_singleton.mpr
      (.node rfl (List.forall_mem_singleton.mpr (.leaf rfl))))
  intro closure member
  rw [List.mem_singleton.mp (List.mem_toArray.mp member)]
  exact ⟨hook given, rfl, shaped, rfl⟩

theorem parsed : parse "x++;" = .ok code := by
  cbv

theorem steps : ready given = Nat.repeat (fun m => (Machine.step natives m).2) 7 (begun given) := by
  cbv

theorem driven : Machine.Driven natives (ready given) := by
  rw [steps]
  exact .steps (.turn (.start (bodies given) _ 512) (.feed _ parsed)) 7

theorem arises : Machine.Arises natives (fun _ _ => False) (store given) (ready given) := by
  have global : (Value.object 0).Within (store given).objects.size := Nat.zero_lt_two
  rw [steps]
  exact .steps (.feed (.start global 512) parsed) 7

theorem bumps : Bumps code 2 (· + 1.0) 3 :=
  .intro (o := .postIncrement) rfl rfl rfl

theorem gives : (ready given).Gives natives (.number given) :=
  ⟨frame given, [], rfl, rfl⟩

theorem denotes : (frame given).Denotes 3 (ready given).store ⟨0, "x"⟩ (.object 1) :=
  ⟨by cbv, by cbv⟩

end Boxed

namespace Machine

/-- Every step by one gives what its slot held, up to what a hook of the program has made of that,
and then the slot holds the number next to it. -/
theorem givesOld_of_driven {held : σ → Value → Prop} {base : Store σ} (keeps : host.Keeps)
    (faithful : host.Faithful held) (closed : base.Closed held) {m : Machine σ}
    (driven : Driven host m) (arises : Arises host held base m) : m.GivesOld host := by
  have orderly := orderly_of_reachable keeps driven.reachable
  obtain ⟨n, sits⟩ := sits_of_arises faithful closed arises
  refine ⟨fun frame member o bump found bumps => ?_,
    fun frame below bump target value stack bumps gives => ?_⟩
  · have poised := (orderly.tidy frame member).poised
    obtain ⟨root, rooted, -⟩ := poised.rooted
    obtain ⟨node, parts, site⟩ := rooted.site poised.inside
    cases site.get?.symm.trans found
    exact site.exists_bumps bumps
  · have poised := (orderly.tidy frame (by rw [stack]; exact List.mem_cons_self)).poised
    obtain ⟨ready, done⟩ := ready_of_gives poised stack bumps gives
    obtain ⟨m₀, p, runs, driven₀, after, began, settling, hooked⟩ :=
      driven.hooked keeps stack bumps.settles ready
    obtain ⟨slot, which, same, bumped⟩ :=
      bumped_of_gives faithful sits poised stack bumps gives
    refine ⟨m₀, p, runs, slot, driven₀, after, began, settling, which, bumped, ?_⟩
    have content : frame.combined target m.store frame.current = slot.read m.store := by
      rw [Frame.combined, if_pos rfl, which]
      rfl
    have settled := hooked.kept frame.current
    rcases Bumps.runs_cases hooked with rfl | ⟨run, rfl, own⟩
    · have unhooked : value = slot.read m.store := by
        rw [same, Frame.settled, settled, content]
        rfl
      refine .inl ⟨rfl, unhooked, ?_⟩
      rw [unhooked, ← content]
      exact Fold.scriptHook?_of_next? done (by simp [Fold.operands]) rfl settled
    · obtain ⟨x, gave, number⟩ := Bumps.gave_of_mem hooked List.mem_cons_self
        (settling.converted run List.mem_cons_self)
      refine .inr ⟨run, x, rfl, gave, ?_⟩
      rw [same, Frame.settled, settled, HookRun.coerced?, ← own]
      simp [number]

theorem givesOld_of_driven_boxed :
    let held := fun (_ : Unit) (_ : Value) => False
    Boxed.natives.Keeps ∧ Boxed.natives.Faithful held ∧ (Boxed.store 7.0).Closed held ∧
      Driven Boxed.natives (Boxed.ready 7.0) ∧
      Arises Boxed.natives held (Boxed.store 7.0) (Boxed.ready 7.0) ∧
      (Boxed.ready 7.0).Gives Boxed.natives (.number 7.0) ∧
      (Boxed.ready 7.0).GivesOld Boxed.natives :=
  ⟨Boxed.keeps, Boxed.faithful, Boxed.closed 7.0, Boxed.driven 7.0, Boxed.arises 7.0,
    Boxed.gives 7.0, givesOld_of_driven Boxed.keeps Boxed.faithful (Boxed.closed 7.0)
      (Boxed.driven 7.0) (Boxed.arises 7.0)⟩

/-- The slot holds an object until it is written to, but the node gives the number that the hook of
the object gave. -/
theorem gives_number_of_boxed :
    parse "x++;" = .ok Boxed.code ∧ Driven Boxed.natives (Boxed.ready 7.0) ∧
      (Boxed.ready 7.0).stack = [Boxed.frame 7.0] ∧ Bumps Boxed.code 2 (· + 1.0) 3 ∧
      (Boxed.ready 7.0).Gives Boxed.natives (.number 7.0) ∧
      (Boxed.frame 7.0).Denotes 3 (Boxed.ready 7.0).store ⟨0, "x"⟩ (.object 1) ∧
      (Value.object 1).strictEquals (.object 1) = true ∧
      (Value.number 7.0).strictEquals (.object 1) = false :=
  ⟨Boxed.parsed, Boxed.driven 7.0, rfl, Boxed.bumps, Boxed.gives 7.0, Boxed.denotes 7.0,
    rfl, rfl⟩

end Machine

end StepScript
