import StepScript.Proofs.Lockstep.Handlers
import StepScript.Proofs.Units.Beside

/-! Machines in lockstep.

Two machines with hosts that do the same, and with nothing that differs but the state of the
host, make the same steps and stay so.
-/

set_option autoImplicit false

namespace StepScript

variable {σ τ : Type}

namespace Machine

def withHost (m : Machine σ) (h : τ) : Machine τ :=
  ⟨m.store.withHost h, m.global, m.depthLimit, m.pending, m.stack, m.last⟩

inductive Alike (R : σ → τ → Prop) (m : Machine σ) : Machine τ → Prop where
  | withHost {h : τ} (related : R m.store.host h) : Alike R m (m.withHost h)

variable {R : σ → τ → Prop} {m : Machine σ} {m' : Machine τ}

theorem Alike.related (machines : m.Alike R m') : R m.store.host m'.store.host := by
  cases machines with
  | withHost related => exact related

theorem Alike.idle (machines : m.Alike R m') : m'.isIdle = m.isIdle := by
  cases machines with
  | withHost related => rfl

theorem Alike.withStore {s : Store σ} {s' : Store τ} (stores : s.Alike R s')
    (global : Value) (depthLimit : Nat) (pending : List Code) (stack : List Frame)
    (last : Value) :
    Alike R ⟨s, global, depthLimit, pending, stack, last⟩
      ⟨s', global, depthLimit, pending, stack, last⟩ := by
  cases stores with
  | withHost related => exact .withHost related

section Hosts

variable {host : Host σ} {host' : Host τ} (hosts : host.Alike R host')
include hosts

theorem deliver_alike (machines : m.Alike R m') (kind : FrameKind) (value : Value) :
    Paired (Alike R) Eq (deliver host m kind value) (deliver host' m' kind value) := by
  obtain ⟨store, global, depthLimit, pending, stack, last⟩ := m
  cases machines with
  | @withHost h related =>
    cases stack with
    | nil =>
      rw [deliver.eq_3, deliver.eq_3]
      · exact ⟨rfl, .withHost related⟩
      all_goals simp [withHost]
    | cons caller rest =>
      cases kind with
      | topLevel | function => exact ⟨rfl, .withHost related⟩
      | conversion operand conversion =>
        have converted := hosts.convert conversion value store (store.withHost h)
          (.withHost related)
        simp only [deliver, withHost]
        generalize (host.convert conversion value).run store = result at converted ⊢
        generalize (host'.convert conversion value).run (store.withHost h) = result'
          at converted ⊢
        rcases result with ⟨e | primitive, s⟩ <;> rcases result' with ⟨e' | primitive', s'⟩
        · obtain ⟨rfl, stores⟩ := converted
          exact ⟨rfl, .withStore stores _ _ _ _ _⟩
        · exact converted.elim
        · exact converted.elim
        · obtain ⟨rfl, stores⟩ := converted
          exact ⟨rfl, .withStore stores _ _ _ _ _⟩

theorem apply_alike (machines : m.Alike R m') (frame : Frame) (move : Move) :
    Paired (Alike R) Eq (apply host m frame move) (apply host' m' frame move) := by
  -- Only the delivery of a value asks the host; the other moves do not touch its state.
  cases move with
  | give value =>
    have delivered := deliver_alike hosts machines frame.kind value
    simp only [apply]
    generalize deliver host m frame.kind value = result at delivered ⊢
    generalize deliver host' m' frame.kind value = result' at delivered ⊢
    rcases result with ⟨e | _, after⟩ <;> rcases result' with ⟨e' | _, after'⟩
    · exact delivered
    · exact delivered.elim
    · exact delivered.elim
    · exact ⟨rfl, delivered.2⟩
  | descend child =>
    cases machines with
    | withHost related => exact ⟨rfl, .withHost related⟩
  | finish value =>
    cases machines with
    | withHost related =>
      simp only [apply]
      rcases finishNode frame value with e | finished
      · exact ⟨rfl, .withHost related⟩
      · exact ⟨rfl, .withHost related⟩
  | call closure args =>
    cases machines with
    | withHost related =>
      by_cases full : m.depthLimit ≤ m.stack.length + 1
      · simp only [apply, push, depth, withHost, List.length_cons, full, ↓reduceIte]
        exact ⟨rfl, .withHost related⟩
      · simp only [apply, push, depth, withHost, List.length_cons, full, ↓reduceIte]
        rcases finishNode frame .undefined with e | finished
        · exact ⟨rfl, .withHost related⟩
        · exact ⟨rfl, .withHost related⟩
  | convert operand conversion closure =>
    cases machines with
    | withHost related =>
      by_cases full : m.depthLimit ≤ m.stack.length + 1
      · simp only [apply, push, depth, withHost, List.length_cons, full, ↓reduceIte]
        exact ⟨rfl, .withHost related⟩
      · simp only [apply, push, depth, withHost, List.length_cons, full, ↓reduceIte]
        exact ⟨rfl, .withHost related⟩

theorem stepFrame_alike (machines : m.Alike R m') (frame : Frame) (below : List Frame) :
    Paired (Alike R) Eq (stepFrame host m frame below) (stepFrame host' m' frame below) := by
  cases machines with
  | @withHost h related =>
    have states : Local.Alike R frame frame.code ⟨frame, m.store⟩ ⟨frame, m.store.withHost h⟩ :=
      ⟨rfl, rfl, rfl, rfl, .withHost related⟩
    -- Both walk over the same code, so the handlers agree at the current node.
    have handled := Handler.alike_node (.refl frame.code frame.current)
      (.refl frame.code frame.current frame.previous) hosts _ _ states
    simp only [stepFrame, withHost]
    generalize (Handler.node host frame.current).run ⟨frame, m.store⟩ = result at handled ⊢
    generalize (Handler.node host' frame.current).run ⟨frame, m.store.withHost h⟩ = result'
      at handled ⊢
    rcases result with ⟨e | move, after⟩ <;> rcases result' with ⟨e' | move', after'⟩
    · obtain ⟨rfl, states⟩ := handled
      exact ⟨rfl, .withStore states.store _ _ _ _ _⟩
    · exact handled.elim
    · exact handled.elim
    · obtain ⟨rfl, states⟩ := handled
      have frames : after'.frame = after.frame := by
        rw [states.frame, ← states.code]
      simp only [frames]
      exact apply_alike hosts (.withStore states.store _ _ _ _ _) after.frame move

theorem rawStep_alike (machines : m.Alike R m') :
    Paired (Alike R) Eq (rawStep host m) (rawStep host' m') := by
  obtain ⟨store, global, depthLimit, pending, stack, last⟩ := m
  cases machines with
  | withHost related =>
    cases stack with
    | cons frame below => exact stepFrame_alike hosts (.withHost related) frame below
    | nil =>
      cases pending with
      | nil => exact ⟨rfl, .withHost related⟩
      | cons code pending =>
        exact stepFrame_alike hosts
          (m := ⟨store, global, depthLimit, pending, [], last⟩) (.withHost related)
          (.start .topLevel global code) []

/-- Both machines make the same step. -/
theorem step_alike (machines : m.Alike R m') :
    Paired (Alike R) Eq (step host m) (step host' m') := by
  have stepped := rawStep_alike hosts machines
  simp only [step]
  generalize rawStep host m = result at stepped ⊢
  generalize rawStep host' m' = result' at stepped ⊢
  rcases result with ⟨e | record, after⟩ <;> rcases result' with ⟨e' | record', after'⟩
  · obtain ⟨rfl, machines⟩ := stepped
    cases machines with
    | withHost related => exact ⟨rfl, .withHost related⟩
  · exact stepped.elim
  · exact stepped.elim
  · exact stepped

/-- Both machines come to the same in the same number of steps. -/
theorem execute_alike (fuel : Nat) (machines : m.Alike R m') :
    Option.Rel (Paired (Alike R) Eq) (execute host fuel m) (execute host' fuel m') := by
  -- By induction on the fuel; both machines are idle at the same time.
  induction fuel generalizing m m' with
  | zero =>
    cases idle : m.isIdle with
    | false =>
      rw [execute_zero idle, execute_zero (machines.idle.trans idle)]
      exact .none
    | true =>
      rw [execute_of_idle host idle, execute_of_idle host' (machines.idle.trans idle)]
      cases machines with
      | withHost related => exact .some ⟨rfl, .withHost related⟩
  | succ fuel ih =>
    cases idle : m.isIdle with
    | false =>
      rw [execute_succ fuel idle, execute_succ fuel (machines.idle.trans idle)]
      have stepped := step_alike hosts machines
      generalize step host m = result at stepped ⊢
      generalize step host' m' = result' at stepped ⊢
      rcases result with ⟨e | record, after⟩ <;> rcases result' with ⟨e' | record', after'⟩
      · exact .some ⟨stepped.1, stepped.2⟩
      · exact stepped.elim
      · exact stepped.elim
      · exact ih stepped.2
    | true =>
      rw [execute_of_idle host idle, execute_of_idle host' (machines.idle.trans idle)]
      cases machines with
      | withHost related => exact .some ⟨rfl, .withHost related⟩

end Hosts

end Machine

end StepScript
