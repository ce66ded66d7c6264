import Mathlib
import StepScript.Proofs.Evaluator.Agreement
import StepScript.Proofs.Grammar.Shape
import StepScript.Proofs.Value.Hosts

/-! The machine computes what the evaluator computes.

Running a unit on an idle machine and evaluating its tree come to the same: both
stop or neither does, and when they stop, they do with the same value or error
and leave the same store. A host may keep a record of its calls in its state, so
the calls are the same too.
-/

set_option autoImplicit false

namespace StepScript

variable {σ τ : Type} {host : Host σ}

/-! ## Hosts that record their calls -/

/-- A host that also records its calls and their arguments, the latest last. -/
def Host.recorded (host : Host σ) : Host (σ × List (Nat × List Value)) where
  call function args := ExceptT.mk fun s =>
    let (result, after) := (host.call function args).run (s.withHost s.host.1)
    (result, after.withHost (after.host, s.host.2 ++ [(function, args)]))

theorem Host.Keeps.recorded (keeps : host.Keeps) : host.recorded.Keeps := by
  intro function args s bodies
  have kept := keeps function args (s.withHost s.host.1) (bodies.of_closures rfl)
  exact kept.of_closures rfl

def Machine.recorded (m : Machine σ) : Machine (σ × List (Nat × List Value)) :=
  ⟨m.store.withHost (m.store.host, []), m.global, m.depthLimit, m.pending, m.stack, m.last⟩

/-! ## Units -/

def Machine.setting (m : Machine σ) (tree : Rose Node) : Setting :=
  ⟨.topLevel, m.global, tree, [], m.global, m.depthLimit, [], m.last⟩

theorem Machine.behaviour_feed {m : Machine σ} (idle : m.isIdle = true) (tree : Rose Node) :
    (m.feed (.ofRose tree)).behaviour host =
      ((m.setting tree).state m.store 0 0 .empty .empty).behaviour host := by
  obtain ⟨store, global, depthLimit, pending, stack, last⟩ := m
  simp only [isIdle, Bool.and_eq_true, List.isEmpty_iff] at idle
  obtain ⟨rfl, rfl⟩ := idle
  rw [behaviour_eq_delay host rfl, behaviour_eq_delay host rfl]
  rfl

theorem Machine.setting_given (host : Host σ) (m : Machine σ) (tree : Rose Node) (value : Value)
    (s : Store σ) (steps : Nat) : ∃ after : Machine σ,
    ((m.setting tree).given host value s).within steps = some (.ok value, after) ∧
      after.store = s :=
  ⟨_, execute_of_idle host rfl steps, rfl⟩

theorem Machine.simulates_unit (keeps : host.Keeps) {m : Machine σ} (idle : m.isIdle = true)
    (bodies : m.store.Bodies) {tree : Rose Node} (shaped : Shaped tree)
    (isUnit : tree.value = .statement .unit) (fuel : Nat) :
    Simulates (fuel + 1)
      (Evaluator.sequence (Evaluator.eval host m.depthLimit fuel ⟨m.global, 1⟩) .undefined
        tree.children) m.store ((m.feed (.ofRose tree)).behaviour host)
      ((m.setting tree).given host) ((m.setting tree).given host) := by
  rw [behaviour_feed idle]
  exact simulates_code (c := m.setting tree) (agrees_all keeps fuel) shaped (.inl isUnit) m.store
    bodies

section

variable (keeps : host.Keeps) {m : Machine σ} (idle : m.isIdle = true) (bodies : m.store.Bodies)
  {tree : Rose Node} (shaped : Shaped tree) (isUnit : tree.value = .statement .unit)
include keeps idle bodies shaped isUnit

/-- What the evaluator comes to, the machine comes to. -/
theorem Machine.execute_of_run {fuel : Nat} {result : Except EvalError Value} {s : Store σ}
    (ran : Evaluator.run host m.depthLimit fuel m.global tree m.store = some (result, s)) :
    ∃ steps after, execute host steps (m.feed (.ofRose tree)) = some (result, after) ∧
      after.store = s := by
  have simulates := simulates_unit keeps idle bodies shaped isUnit fuel
  unfold Evaluator.run at ran
  unfold Simulates at simulates
  obtain ⟨answer, evaluated, same⟩ := Option.map_eq_some_iff.mp ran
  rw [evaluated] at simulates
  -- A value and a returned value go on in the same way.
  have gives {value : Value} {s' : Store σ}
      (follows : ((m.feed (.ofRose tree)).behaviour host).Follows
        ((m.setting tree).given host value s')) :
      ∃ steps after, execute host steps (m.feed (.ofRose tree)) = some (.ok value, after) ∧
        after.store = s' := by
    obtain ⟨delay, later⟩ := follows
    obtain ⟨after, stops, stored⟩ := m.setting_given host tree value s' 0
    exact ⟨delay, after, (later 0).trans stops, stored⟩
  rcases answer with ⟨(e | value) | value, s'⟩
  · cases same
    exact simulates
  · cases same
    exact gives simulates.2
  · cases same
    exact gives simulates.2

/-- What the machine comes to, the evaluator comes to. -/
theorem Machine.run_of_execute {steps : Nat} {result : Except EvalError Value}
    {after : Machine σ}
    (stops : execute host steps (m.feed (.ofRose tree)) = some (result, after)) :
    ∃ fuel, Evaluator.run host m.depthLimit fuel m.global tree m.store =
      some (result, after.store) := by
  refine ⟨steps, ?_⟩
  cases ran : Evaluator.run host m.depthLimit steps m.global tree m.store with
  | none =>
    -- Where the fuel runs out, the machine needs more steps than that.
    have simulates := simulates_unit keeps idle bodies shaped isUnit steps
    unfold Evaluator.run at ran
    unfold Simulates at simulates
    rw [Option.map_eq_none_iff.mp ran] at simulates
    have longer := ((m.feed (.ofRose tree)).behaviour host).none_of_le (Nat.le_succ steps) simulates
    cases stops.symm.trans longer
  | some answer =>
    obtain ⟨steps', after', stops', stored⟩ :=
      execute_of_run keeps idle bodies shaped isUnit ran
    -- The machine stops once, so what it comes to here is what it comes to there.
    have same := ((m.feed (.ofRose tree)).behaviour host).eq_of_within stops stops'
    cases same
    rw [stored]

end

/-- Feeding a parsed program to an idle machine and executing it stops if and only if evaluating its
tree does, with the same result and the same store; and with the same calls of host functions, since
this holds of the recording host as well. -/
theorem Machine.execute_iff_run (keeps : host.Keeps) {m : Machine σ} (idle : m.isIdle = true)
    (bodies : m.store.Bodies) {source : String} {code : Code} (parsed : parse source = .ok code) :
    (∀ result s,
      (∃ steps after, execute host steps (m.feed code) = some (result, after) ∧ after.store = s) ↔
        ∃ fuel, Evaluator.run host m.depthLimit fuel m.global code.toRose m.store =
          some (result, s)) ∧
    ∀ result s,
      (∃ steps after, execute host.recorded steps (m.recorded.feed code) = some (result, after) ∧
          after.store = s) ↔
        ∃ fuel, Evaluator.run host.recorded m.depthLimit fuel m.global code.toRose
          m.recorded.store = some (result, s) := by
  obtain ⟨tree, rfl, shaped, isUnit⟩ := rooted_parse parsed
  rw [Outline.toRose_ofRose]
  constructor
  · intro result s
    constructor
    · rintro ⟨steps, after, stops, rfl⟩
      exact run_of_execute keeps idle bodies shaped isUnit stops
    · rintro ⟨fuel, ran⟩
      exact execute_of_run keeps idle bodies shaped isUnit ran
  · intro result s
    constructor
    · rintro ⟨steps, after, stops, rfl⟩
      exact run_of_execute keeps.recorded (m := m.recorded) idle (bodies.of_closures rfl) shaped
        isUnit stops
    · rintro ⟨fuel, ran⟩
      exact execute_of_run keeps.recorded (m := m.recorded) idle (bodies.of_closures rfl) shaped
        isUnit ran

theorem Machine.execute_iff_run_of_host_call :
    let host : Host Unit := ⟨fun _ args => pure (args.head?.getD .undefined)⟩
    let code := Outline.ofRose
      (.node (.statement .unit) [.node (.statement .expression)
        [.node (.operation .call) [.leaf (.use "f"), .leaf (.literal (.string "a"))]]])
    let m := Machine.start ⟨#[⟨.null, [("f", .function (.native 0))]⟩], #[], #["f"], ()⟩
      (.object 0) 512
    host.Keeps ∧ m.isIdle = true ∧ m.store.Bodies ∧ parse "f('a');" = .ok code ∧
      ∃ steps after, execute host.recorded steps (m.recorded.feed code) =
          some (.ok (.string "a"), after) ∧
        after.store = m.store.withHost ((), [(0, [.string "a"])]) := by
  intro host code m
  have keeps : host.Keeps := fun _ _ => .pure _
  have bodies : m.store.Bodies := by
    intro closure member
    simp [m, Machine.start] at member
  have parsed : parse "f('a');" = .ok code := by cbv
  refine ⟨keeps, rfl, bodies, parsed, ?_⟩
  apply ((execute_iff_run keeps rfl bodies parsed).2 _ _).mpr
  exact ⟨5, by rw [Outline.toRose_ofRose]; rfl⟩

end StepScript
