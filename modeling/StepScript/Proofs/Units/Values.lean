import StepScript.Proofs.Units.Beside

/-! What units leave for `execute`.

The value of a unit that ends is kept until `execute` gives a value. Steps end units as well,
and a run that fails may have ended some before, so there may be such a value when nothing is
running or waiting. `Handled` says which one it is.
-/

set_option autoImplicit false

namespace StepScript

variable {σ : Type} {host : Host σ}

namespace Machine

def endedWithin (host : Host σ) : Nat → Machine σ → Option Value
  | 0, _ => none
  | fuel + 1, m =>
    if m.isIdle then none
    else match step host m with
      | (.ok record, m) => (endedWithin host fuel m).or (ended? (.ok record, m))
      | (.error _, _) => none

theorem last_of_execute {fuel : Nat} {m m' : Machine σ} {value : Value}
    (ran : execute host fuel m = some (.ok value, m')) : m'.last = .undefined := by
  fun_induction execute host fuel m with
  | case1 fuel m idle =>
    cases ran
    rfl
  | case2 m busy => cases ran
  | case3 m busy fuel record after stepped ih => exact ih ran
  | case4 m busy fuel e after stepped => cases ran

/-- An `execute` that fails gives no value, and those of the units that ended before stay. -/
theorem last_of_failed {fuel : Nat} {m m' : Machine σ} {e : EvalError}
    (ran : execute host fuel m = some (.error e, m')) :
    m'.last = (endedWithin host fuel m).getD m.last := by
  -- By induction on the run; what a unit leaves stays until another one ends.
  fun_induction execute host fuel m with
  | case1 fuel m idle => cases ran
  | case2 m busy => cases ran
  | case3 m busy fuel record after stepped ih =>
    have last := last_step host m
    rw [stepped] at last
    have found : endedWithin host (fuel + 1) m =
        (endedWithin host fuel after).or (ended? (.ok record, after)) := by
      rw [endedWithin, if_neg busy, stepped]
    rw [found, Option.getD_or, ih ran, last]
  | case4 m busy fuel e' after stepped =>
    cases ran
    have last := last_step host m
    rw [stepped] at last
    rw [endedWithin, if_neg busy, stepped]
    exact last

/-- What calls make of a machine, with the value of the unit that ended last since `execute` has
given a value. In between the store and the global scope may change. -/
inductive Handled (host : Host σ) : Machine σ → Option Value → Prop where
  | start (store : Store σ) (global : Value) (depthLimit : Nat) :
    Handled host (Machine.start store global depthLimit) none
  | feed {m : Machine σ} {value? : Option Value} (before : Handled host m value?) (code : Code) :
    Handled host (m.feed code) value?
  | step {m : Machine σ} {value? : Option Value} (before : Handled host m value?) :
    Handled host (step host m).2 ((ended? (step host m)).or value?)
  | executed {m m' : Machine σ} {value? : Option Value} {fuel : Nat} {value : Value}
    (before : Handled host m value?) (ran : execute host fuel m = some (.ok value, m')) :
    Handled host m' none
  | failed {m m' : Machine σ} {value? : Option Value} {fuel : Nat} {e : EvalError}
    (before : Handled host m value?) (ran : execute host fuel m = some (.error e, m')) :
    Handled host m' ((endedWithin host fuel m).or value?)
  | change {m : Machine σ} {value? : Option Value} (before : Handled host m value?)
    (store : Store σ) (global : Value) :
    Handled host { m with store := store, global := global } value?

theorem Handled.last {m : Machine σ} {value? : Option Value} (handled : Handled host m value?) :
    m.last = value?.getD .undefined := by
  induction handled with
  | start => rfl
  | feed before code same => exact same
  | @step m value? before same =>
    rw [last_step, same, Option.getD_or]
  | executed before ran => exact last_of_execute ran
  | @failed m m' value? fuel e before ran same =>
    rw [last_of_failed ran, same, Option.getD_or]
  | change before store global same => exact same

/-- With nothing to do, `execute` gives what the last unit has left, and no more than that changes.
Where no unit has ended since it gave a value, this is `undefined`, and nothing changes. -/
theorem execute_of_handled {m : Machine σ} {value? : Option Value}
    (handled : Handled host m value?) (idle : m.isIdle = true) (fuel : Nat) :
    execute host fuel m = some (.ok (value?.getD .undefined), { m with last := .undefined }) ∧
      (value? = none → execute host fuel m = some (.ok .undefined, m)) := by
  have gives := execute_of_idle host idle fuel
  refine ⟨by rw [gives, handled.last], fun none => ?_⟩
  have last : m.last = .undefined := by
    rw [handled.last, none]
    rfl
  rw [gives, ← last]

/-- A unit that was driven to its end step by step leaves its value to `execute`. -/
theorem execute_of_handled_steps :
    let host : Host Unit := ⟨fun _ _ => pure .undefined⟩
    let code := Outline.ofRose
      (.node (.statement .unit) [.node (.statement .expression) [.leaf (.literal (.string "a"))]])
    let turn (m : Machine Unit) := (step host m).2
    let m := turn (turn (turn (turn (turn ((Machine.start (Store.empty ()) .null 512).feed code)))))
    parse "'a';" = .ok code ∧ Handled host m (some (.string "a")) ∧ m.isIdle = true ∧
      execute host 0 m = some (.ok (.string "a"), { m with last := .undefined }) := by
  intro host code turn m
  have parsed : parse "'a';" = .ok code := by cbv
  have handled : Handled host m (some (.string "a")) :=
    .step (.step (.step (.step (.step (.feed (.start (Store.empty ()) .null 512) code)))))
  have idle : m.isIdle = true := rfl
  exact ⟨parsed, handled, idle, (execute_of_handled handled idle 0).1⟩

end Machine

end StepScript
