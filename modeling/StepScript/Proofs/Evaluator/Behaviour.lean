import StepScript.Proofs.Evaluator.Direct
import StepScript.Proofs.Value.Bodies

/-! Machines that do what an evaluation does.

The behaviour of a machine says what comes out of it within a number of steps.
`Simulates k x s b K R` compares the evaluation `x`, started in the store `s`,
with a behaviour `b`: where `x` has a value, `b` goes on as `K` says; where `x`
returns, `b` goes on as `R` says; where `x` fails, `b` stops with the same error
and the same store; and where `x` runs out of fuel, nothing comes out of `b` within
`k` steps. The last clause makes the comparison hold in both directions.
-/

set_option autoImplicit false

namespace StepScript

variable {σ α β : Type}

/-- What comes out within a number of steps; more steps do not change it. -/
structure Behaviour (σ : Type) where
  within : Nat → Option (Except EvalError Value × Machine σ)
  mono : ∀ steps result, within steps = some result → within (steps + 1) = some result

namespace Behaviour

theorem ext {b b' : Behaviour σ} (same : ∀ steps, b.within steps = b'.within steps) : b = b' := by
  obtain ⟨within, mono⟩ := b
  obtain ⟨within', mono'⟩ := b'
  have : within = within' := funext same
  subst this
  rfl

theorem mono_add (b : Behaviour σ) {steps : Nat} {result : Except EvalError Value × Machine σ}
    (stops : b.within steps = some result) (more : Nat) :
    b.within (steps + more) = some result := by
  induction more with
  | zero => exact stops
  | succ more ih => exact b.mono _ result ih

theorem none_of_le (b : Behaviour σ) {few many : Nat} (fewer : few ≤ many)
    (runs : b.within many = none) : b.within few = none := by
  cases out : b.within few with
  | none => rfl
  | some result =>
    obtain ⟨more, rfl⟩ := Nat.exists_eq_add_of_le fewer
    rw [b.mono_add out more] at runs
    cases runs

/-- What comes out is the same whenever it comes out. -/
theorem eq_of_within (b : Behaviour σ) {steps steps' : Nat}
    {result result' : Except EvalError Value × Machine σ} (first : b.within steps = some result)
    (second : b.within steps' = some result') : result = result' := by
  have long := b.mono_add first steps'
  have long' := b.mono_add second steps
  rw [Nat.add_comm] at long'
  exact Option.some.inj (long.symm.trans long')

def stopped (result : Except EvalError Value × Machine σ) : Behaviour σ :=
  ⟨fun _ => some result, fun _ _ same => same⟩

def delay (b : Behaviour σ) : Behaviour σ where
  within
    | 0 => none
    | steps + 1 => b.within steps
  mono
    | 0, _, stops => nomatch stops
    | steps + 1, result, stops => b.mono steps result stops

def Follows (b b' : Behaviour σ) : Prop :=
  ∃ delay, ∀ steps, b.within (delay + steps) = b'.within steps

theorem Follows.refl (b : Behaviour σ) : Follows b b :=
  ⟨0, fun steps => by rw [Nat.zero_add]⟩

theorem Follows.trans {b b' b'' : Behaviour σ} (first : Follows b b') (second : Follows b' b'') :
    Follows b b'' := by
  obtain ⟨i, before⟩ := first
  obtain ⟨j, after⟩ := second
  exact ⟨i + j, fun steps => by rw [Nat.add_assoc, before, after]⟩

theorem Follows.delay {b b' : Behaviour σ} (follows : Follows b b') : Follows b.delay b' := by
  obtain ⟨i, later⟩ := follows
  refine ⟨i + 1, fun steps => ?_⟩
  rw [Nat.add_right_comm]
  exact later steps

def Fails (b : Behaviour σ) (e : EvalError) (s : Store σ) : Prop :=
  ∃ steps m, b.within steps = some (.error e, m) ∧ m.store = s

theorem Fails.of_follows {b b' : Behaviour σ} {e : EvalError} {s : Store σ}
    (follows : Follows b b') (fails : Fails b' e s) : Fails b e s := by
  obtain ⟨i, later⟩ := follows
  obtain ⟨steps, m, stops, same⟩ := fails
  exact ⟨i + steps, m, by rw [later, stops], same⟩

theorem none_of_follows {b b' : Behaviour σ} (follows : Follows b b') {steps : Nat}
    (runs : b'.within steps = none) : b.within steps = none := by
  obtain ⟨i, later⟩ := follows
  exact b.none_of_le (Nat.le_add_left steps i) (by rw [later, runs])

end Behaviour

namespace Machine

variable (host : Host σ)

theorem execute_of_idle {m : Machine σ} (idle : m.isIdle = true) (fuel : Nat) :
    execute host fuel m = some (.ok m.last, { m with last := .undefined }) := by
  unfold execute
  rw [if_pos idle]

theorem execute_mono (fuel : Nat) (m : Machine σ) (result : Except EvalError Value × Machine σ)
    (stops : execute host fuel m = some result) : execute host (fuel + 1) m = some result := by
  induction fuel generalizing m with
  | zero =>
    unfold execute at stops
    split at stops
    case isTrue idle =>
      rw [execute_of_idle host idle]
      exact stops
    case isFalse => cases stops
  | succ fuel ih =>
    unfold execute at stops
    split at stops
    case isTrue idle =>
      rw [execute_of_idle host idle]
      exact stops
    case isFalse running =>
      unfold execute
      rw [if_neg running]
      simp only at stops ⊢
      -- The first step is the same whatever the fuel, so the rest is up to the machine after it.
      split at stops
      case h_1 record after stepped => exact ih after stops
      case h_2 e after stepped => exact stops

def behaviour (m : Machine σ) : Behaviour σ :=
  ⟨fun fuel => execute host fuel m, fun fuel result => execute_mono host fuel m result⟩

def behaviourAfter {α : Type} : Except EvalError α × Machine σ → Behaviour σ
  | (.ok _, m) => m.behaviour host
  | (.error e, m) => .stopped (.error e, m)

/-- A machine with work to do makes a step. -/
theorem behaviour_eq_delay {m : Machine σ} (running : m.isIdle = false) :
    m.behaviour host = (behaviourAfter host (step host m)).delay := by
  apply Behaviour.ext
  intro fuel
  have busy : ¬ m.isIdle = true := by simp [running]
  cases fuel with
  | zero =>
    show execute host 0 m = none
    unfold execute
    rw [if_neg busy]
  | succ fuel =>
    show execute host (fuel + 1) m = (behaviourAfter host (step host m)).within fuel
    unfold execute
    rw [if_neg busy]
    rcases step host m with ⟨e | record, after⟩
    · rfl
    · rfl

end Machine

open Behaviour

def Accords (k : Nat) (b : Behaviour σ) (K : α → Store σ → Behaviour σ)
    (R : Value → Store σ → Behaviour σ) : Option (Except Exit α × Store σ) → Prop
  | none => b.within k = none
  | some (.ok a, s) => s.Bodies ∧ b.Follows (K a s)
  | some (.error (.returned value), s) => s.Bodies ∧ b.Follows (R value s)
  | some (.error (.failed e), s) => b.Fails e s

/-- The behaviour does what the evaluation does. -/
def Simulates (k : Nat) (x : Eval σ α) (s : Store σ) (b : Behaviour σ)
    (K : α → Store σ → Behaviour σ) (R : Value → Store σ → Behaviour σ) : Prop :=
  Accords k b K R (x.run s)

variable {k : Nat} {s : Store σ} {b : Behaviour σ} {R : Value → Store σ → Behaviour σ}

theorem Accords.of_follows {b' : Behaviour σ} {K : α → Store σ → Behaviour σ}
    {result : Option (Except Exit α × Store σ)} (accords : Accords k b' K R result)
    (follows : b.Follows b') : Accords k b K R result := by
  rcases result with _ | ⟨(e | value) | a, s⟩
  · exact none_of_follows follows accords
  · exact Fails.of_follows follows accords
  · exact ⟨accords.1, follows.trans accords.2⟩
  · exact ⟨accords.1, follows.trans accords.2⟩

namespace Simulates

variable {K : α → Store σ → Behaviour σ} {x : Eval σ α}

theorem of_le {k' : Nat} (simulates : Simulates k' x s b K R) (fewer : k ≤ k') :
    Simulates k x s b K R := by
  unfold Simulates Accords at *
  split at simulates
  · exact b.none_of_le fewer simulates
  · exact simulates
  · exact simulates
  · exact simulates

/-- A step makes room for one more level of recursion. -/
theorem delay (simulates : Simulates k x s b K R) : Simulates (k + 1) x s b.delay K R := by
  unfold Simulates Accords at *
  split at simulates
  · exact simulates
  · exact ⟨simulates.1, simulates.2.delay⟩
  · exact ⟨simulates.1, simulates.2.delay⟩
  · exact Fails.of_follows (Follows.refl b).delay simulates

theorem pure {a : α} (bodies : s.Bodies) (follows : b.Follows (K a s)) :
    Simulates k (Pure.pure a : Eval σ α) s b K R :=
  ⟨bodies, follows⟩

theorem fail {e : EvalError} (fails : b.Fails e s) :
    Simulates k (Eval.fail e : Eval σ α) s b K R :=
  fails

theorem returned {value : Value} (bodies : s.Bodies) (follows : b.Follows (R value s)) :
    Simulates k (throw (.returned value) : Eval σ α) s b K R :=
  ⟨bodies, follows⟩

theorem bind {f : α → Eval σ β} {K' : β → Store σ → Behaviour σ} (first : Simulates k x s b K R)
    (next : ∀ a s', s'.Bodies → Simulates k (f a) s' (K a s') K' R) :
    Simulates k (x >>= f) s b K' R := by
  have run : (x >>= f).run s = (x.run s).bind fun answer =>
      (ExceptT.bindCont f answer.1) answer.2 := rfl
  unfold Simulates at *
  rw [run]
  generalize x.run s = answer at first ⊢
  -- Only a value leads on to the second evaluation; the other results are those of the first.
  rcases answer with _ | ⟨(e | value) | a, after⟩
  · exact first
  · exact first
  · exact first
  · exact (next a after first.1).of_follows first.2

theorem store {f : Store σ → Eval σ β} {K' : β → Store σ → Behaviour σ}
    (next : Simulates k (f s) s b K' R) : Simulates k (Eval.store >>= f) s b K' R :=
  next

theorem setStore {f : Unit → Eval σ β} {K' : β → Store σ → Behaviour σ} {s' : Store σ}
    (next : Simulates k (f ()) s' b K' R) :
    Simulates k (Eval.setStore s' >>= f) s b K' R :=
  next

theorem act {computation : Act σ α} {f : α → Eval σ β} {K' : β → Store σ → Behaviour σ}
    (keeps : computation.Keeps) (bodies : s.Bodies)
    (fails : ∀ e s', computation.run s = (.error e, s') → b.Fails (.ofValueError e) s')
    (next : ∀ a s', computation.run s = (.ok a, s') → s'.Bodies →
      Simulates k (f a) s' b K' R) :
    Simulates k (Eval.act computation >>= f) s b K' R := by
  have kept := keeps s bodies
  have ran : (Eval.act computation >>= f).run s = ((Eval.act computation).run s).bind fun answer =>
      (ExceptT.bindCont f answer.1) answer.2 := rfl
  unfold Simulates
  rw [ran]
  simp only [Eval.act, ExceptT.run_mk]
  rcases run : computation.run s with ⟨e | a, after⟩
  · exact fails e after run
  · rw [run] at kept
    exact next a after run kept

/-- Where values and returned values are treated alike, a return ends the evaluation. -/
theorem returning {body : Eval σ Value} {K : Value → Store σ → Behaviour σ}
    {R' : Value → Store σ → Behaviour σ} (simulates : Simulates k body s b K K) :
    Simulates k (Eval.returning body) s b K R' := by
  have run : (Eval.returning body).run s = (body.run s).map fun answer =>
      match answer with
      | (.error (.returned value), after) => (.ok value, after)
      | other => other := by
    show (body.run s >>= _) = _
    rcases body.run s with _ | ⟨(e | value) | value, after⟩
    · rfl
    · rfl
    · rfl
    · rfl
  unfold Simulates at *
  rw [run]
  generalize body.run s = answer at simulates ⊢
  rcases answer with _ | ⟨(e | value) | value, after⟩
  · exact simulates
  · exact simulates
  · exact simulates
  · exact simulates

end Simulates

end StepScript
