import StepScript.Proofs.Evaluator.Equivalence
import StepScript.Proofs.Units.Beside

/-! Errors leave no trace.

Wherever a step fails, the frames and the units that wait are dropped. What stays of a run is
the store, and the value of the last unit that ended before; and no step looks at this value. So
a machine that has failed runs whatever is fed to it as a new machine with the same store does.
-/

set_option autoImplicit false

namespace StepScript

variable {σ : Type} {host : Host σ}

namespace Machine

/-- A step or a whole run of `m` ends in the error `e` and leaves `m'`. -/
inductive Breaks (host : Host σ) (m : Machine σ) (e : EvalError) (m' : Machine σ) : Prop where
  | step (failed : step host m = (.error e, m'))
  | execute {fuel : Nat} (failed : execute host fuel m = some (.error e, m'))

def feedAll (m : Machine σ) (units : List Code) : Machine σ :=
  units.foldl feed m

def rounds (host : Host σ) (fuel : Nat) :
    Machine σ → List (List Code) → Option (List (Except EvalError Value × Store σ))
  | _, [] => some []
  | m, units :: more => do
    let (result, m) ← execute host fuel (m.feedAll units)
    let rest ← rounds host fuel m more
    return (result, m.store) :: rest

/-! ## Runs from another last value -/

theorem feedAll_eq (m : Machine σ) (units : List Code) :
    m.feedAll units = { m with pending := m.pending ++ units } := by
  induction units generalizing m with
  | nil => simp [feedAll]
  | cons unit units ih =>
    show (m.feed unit).feedAll units = _
    rw [ih]
    simp [feed]

theorem feedAll_busy (m : Machine σ) {units : List Code} (some : units ≠ []) :
    (m.feedAll units).isIdle = false := by
  rw [feedAll_eq]
  simp [isIdle, some]

/-- A run that has anything to do gives the same from another last value. -/
theorem execute_last (host : Host σ) (fuel : Nat) {m : Machine σ} (busy : m.isIdle = false)
    (last : Value) :
    ∃ last', execute host fuel { m with last := last } =
      (execute host fuel m).map fun (result, after) =>
        (result, { after with last := last' }) := by
  induction fuel generalizing m last with
  | zero =>
    refine ⟨last, ?_⟩
    rw [execute_zero busy, execute_zero (m := { m with last := last }) busy]
    rfl
  | succ fuel ih =>
    rw [execute_succ fuel busy, execute_succ fuel (m := { m with last := last }) busy, step_last]
    rcases stepped : step host m with ⟨e | record, after⟩
    · exact ⟨_, rfl⟩
    · cases idle : after.isIdle with
      | false => exact ih idle _
      | true =>
        -- The unit that has ended here has left the same value in both machines.
        obtain ⟨value, ended⟩ := ended_of_step busy stepped idle
        have same : after.last = value := by
          have last := last_step host m
          rw [stepped, ended] at last
          exact last
        refine ⟨.undefined, ?_⟩
        simp only
        rw [ended, Option.getD_some, ← same, execute_of_idle host idle]
        rfl

theorem rounds_last (fuel : Nat) (m : Machine σ) (last : Value) {batches : List (List Code)}
    (filled : ∀ units ∈ batches, units ≠ []) :
    rounds host fuel { m with last := last } batches = rounds host fuel m batches := by
  induction batches generalizing m last with
  | nil => rfl
  | cons units batches ih =>
    obtain ⟨first, rest⟩ := List.forall_mem_cons.mp filled
    obtain ⟨last', same⟩ := execute_last host fuel (m.feedAll_busy first) last
    have fed : ({ m with last := last } : Machine σ).feedAll units =
        { m.feedAll units with last := last } := by
      rw [feedAll_eq, feedAll_eq]
    rw [rounds, rounds, fed, same]
    rcases execute host fuel (m.feedAll units) with _ | ⟨result, after⟩
    · rfl
    · simp only [Option.map_some, Option.bind_eq_bind, Option.bind_some, ih after last' rest]

/-! ## After an error -/

theorem exists_step_of_breaks {m m' : Machine σ} {e : EvalError} (breaks : Breaks host m e m') :
    ∃ m₁, step host m₁ = (.error e, m') ∧ m₁.global = m.global ∧ m₁.depthLimit = m.depthLimit := by
  cases breaks with
  | step failed => exact ⟨m, failed, rfl, rfl⟩
  | @execute fuel failed =>
    fun_induction execute host fuel m with
    | case1 fuel m idle => cases failed
    | case2 m busy => cases failed
    | case3 m busy fuel record after stepped ih =>
      obtain ⟨m₁, last, global, depthLimit⟩ := ih failed
      have setting := step_setting host m
      rw [stepped] at setting
      exact ⟨m₁, last, global.trans setting.1, depthLimit.trans setting.2⟩
    | case4 m busy fuel e' after stepped =>
      cases failed
      exact ⟨m, stepped, rfl, rfl⟩

/-- The machine has nothing to do, in the setting of `m`, and whatever is fed to it, it runs as a
new machine with its store does. -/
structure Recovers (host : Host σ) (m m' : Machine σ) : Prop where
  idle : m'.isIdle = true
  depth : m'.depth = 0
  /-- No unit waits, and a step starts none. -/
  dropped : m'.pending = []
  rests : step host m' = (.ok (.normal .undefined), m')
  global : m'.global = m.global
  depthLimit : m'.depthLimit = m.depthLimit
  sameRounds (fuel : Nat) (batches : List (List Code)) (filled : ∀ units ∈ batches, units ≠ []) :
    rounds host fuel m' batches =
      rounds host fuel (Machine.start m'.store m.global m.depthLimit) batches
  /-- The same functions of the host are called, with the same arguments. -/
  sameCalls (fuel : Nat) (batches : List (List Code)) (filled : ∀ units ∈ batches, units ≠ []) :
    rounds host.recorded fuel m'.recorded batches =
      rounds host.recorded fuel (Machine.start m'.store m.global m.depthLimit).recorded batches

/-- A machine recovers from every error. -/
theorem recovers_of_breaks {m m' : Machine σ} {e : EvalError} (breaks : Breaks host m e m') :
    m.Recovers host m' := by
  obtain ⟨m₁, failed, global, depthLimit⟩ := exists_step_of_breaks breaks
  obtain ⟨global', depthLimit'⟩ := step_setting host m₁
  rw [failed] at global' depthLimit'
  have stack : m'.stack = [] := by
    have cleared := stack_of_error (congrArg Prod.fst failed)
    rw [failed] at cleared
    exact cleared
  have pending : m'.pending = [] := by
    have cleared := pending_of_error (congrArg Prod.fst failed)
    rw [failed] at cleared
    exact cleared
  -- All that is left of the run is the store and the last value.
  have left : m' = { Machine.start m'.store m.global m.depthLimit with last := m'.last } := by
    rw [← global, ← depthLimit, ← global', ← depthLimit', start, ← stack, ← pending]
  refine ⟨by simp [isIdle, stack, pending], by simp [depth, stack], pending,
    by simp [step, rawStep, stack, pending], global'.trans global, depthLimit'.trans depthLimit,
    fun fuel batches filled => ?_, fun fuel batches filled => ?_⟩
  · conv_lhs => rw [left]
    exact rounds_last fuel _ m'.last filled
  · conv_lhs => rw [left]
    exact rounds_last fuel (Machine.start m'.store m.global m.depthLimit).recorded m'.last filled

/-- The first unit leaves its value, the second one fails, and the third one never starts. -/
theorem recovers_of_breaks_waiting_unit :
    let host : Host Unit := ⟨fun _ _ => pure .undefined⟩
    let value := Outline.ofRose
      (.node (.statement .unit) [.node (.statement .expression) [.leaf (.literal (.string "a"))]])
    let name := Outline.ofRose
      (.node (.statement .unit) [.node (.statement .expression) [.leaf (.use "x")]])
    let m := (Machine.start (Store.empty ()) .null 512).feedAll [value, name, value]
    let m' := { Machine.start (Store.empty ()) .null 512 with last := .string "a" }
    parse "'a';" = .ok value ∧ parse "x;" = .ok name ∧
      Breaks host m (.uncaught (.notDefined "x")) m' ∧ m.Recovers host m' := by
  intro host value name m m'
  have parsed : parse "'a';" = .ok value ∧ parse "x;" = .ok name := by
    constructor
    · cbv
    · cbv
  have failed : execute host 8 m = some (.error (.uncaught (.notDefined "x")), m') := by cbv
  have breaks : Breaks host m (.uncaught (.notDefined "x")) m' := .execute failed
  exact ⟨parsed.1, parsed.2, breaks, recovers_of_breaks breaks⟩

end Machine

end StepScript
