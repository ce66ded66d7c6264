import StepScript.Proofs.Evaluator.Behaviour
import StepScript.Proofs.Stack.Discipline

/-! What lies beside the frames of a machine.

A step works on the frames and the store. The global scope, the units that wait and the
value of the unit that ended last lie beside them: a frame that runs looks at none of the
three, and of the three it changes only the value, and that only where it ends a unit. So
two machines that differ in nothing else make the same steps.
-/

set_option autoImplicit false

namespace StepScript

variable {σ : Type} {host : Host σ}

namespace Machine

def beside (m : Machine σ) (global : Value) (pending : List Code) (last : Value) : Machine σ :=
  { m with global := global, pending := pending, last := last }

theorem beside_stack (m : Machine σ) (global : Value) (pending : List Code) (last : Value) :
    (m.beside global pending last).stack = m.stack := rfl

theorem beside_store (m : Machine σ) (global : Value) (pending : List Code) (last : Value) :
    (m.beside global pending last).store = m.store := rfl

def ended? : Except EvalError Record × Machine σ → Option Value
  | (.ok (.returned value), m) => if m.depth = 0 then some value else none
  | _ => none

/-! ## One step -/

section Beside

variable (host) (m : Machine σ) (global : Value) (pending : List Code) (last : Value)

theorem push_beside (stack : List Frame) (kind : FrameKind) (closure : Closure)
    (args : List Value) :
    push { m.beside global pending last with stack := stack } kind closure args =
      (push { m with stack := stack } kind closure args).map (·.beside global pending last) := by
  unfold push
  show (if m.depthLimit ≤ stack.length then _ else _) =
    Except.map _ (if m.depthLimit ≤ stack.length then _ else _)
  split
  · rfl
  · rfl

theorem deliver_beside (kind : FrameKind) (value : Value) :
    deliver host (m.beside global pending last) kind value =
      ((deliver host m kind value).1, (deliver host m kind value).2.beside global pending
        (if m.stack = [] then value else last)) := by
  unfold deliver
  rcases stack : m.stack with _ | ⟨caller, rest⟩
  · simp only [beside, stack, if_pos]
  · simp only [beside, stack, reduceCtorEq, if_false]
    cases kind with
    | topLevel | function => rfl
    | conversion operand conversion =>
      simp only
      rcases (host.convert conversion value).run m.store with ⟨e | converted, s⟩
      · rfl
      · rfl

theorem deliver_depth {kind : FrameKind} {value : Value} {m' : Machine σ}
    (delivered : deliver host m kind value = (.ok (), m')) :
    m'.depth = 0 ↔ m.stack = [] := by
  unfold deliver at delivered
  split at delivered
  case h_1 operand conversion caller rest stack =>
    split at delivered
    · cases delivered
      simp [depth, stack]
    · cases delivered
  case h_2 caller rest other stack =>
    cases delivered
    simp [depth, stack]
  case h_3 stack =>
    cases delivered
    simp [depth, stack]

theorem apply_beside (frame : Frame) (move : Move) :
    apply host (m.beside global pending last) frame move =
      ((apply host m frame move).1, (apply host m frame move).2.beside global pending
        ((ended? (apply host m frame move)).getD last)) := by
  cases move with
  | descend child => rfl
  | finish value =>
    simp only [apply]
    rcases finishNode frame value with e | finished
    · rfl
    · rfl
  | give value =>
    simp only [apply, deliver_beside]
    rcases delivered : deliver host m frame.kind value with ⟨e | _, m'⟩
    · -- Only a conversion fails here, and a conversion is made for a frame below.
      by_cases only : m.stack = []
      · simp [deliver, only] at delivered
      · simp [ended?, only]
    · by_cases only : m.stack = []
      · simp [ended?, deliver_depth host m delivered, only]
      · simp [ended?, deliver_depth host m delivered, only]
  | call closure args =>
    simp only [apply, beside_stack, push_beside]
    rcases push { m with stack := frame :: m.stack } .function closure args with e | pushed
    · rfl
    · rcases stack : pushed.stack with _ | ⟨top, rest⟩ <;>
        rcases finishNode frame .undefined with e | finished <;>
        simp [Except.map, beside, stack, ended?]
  | convert operand conversion closure =>
    simp only [apply, beside_stack, push_beside]
    rcases push { m with stack := { frame with previous := frame.current } :: m.stack }
      (.conversion operand conversion) closure [] with e | pushed
    · rfl
    · rfl

theorem stepFrame_beside (frame : Frame) (below : List Frame) :
    stepFrame host (m.beside global pending last) frame below =
      ((stepFrame host m frame below).1, (stepFrame host m frame below).2.beside global pending
        ((ended? (stepFrame host m frame below)).getD last)) := by
  simp only [stepFrame, beside_store]
  rcases (Handler.node host frame.current).run ⟨frame, m.store⟩ with ⟨e | move, after⟩
  · rfl
  · exact apply_beside host { m with store := after.store, stack := below } global pending last
      after.frame move

end Beside

def surroundings (m : Machine σ) : Value × Nat × List Code :=
  (m.global, m.depthLimit, m.pending)

theorem beside_of_surroundings {m m' : Machine σ} (around : m'.surroundings = m.surroundings)
    (last : Value) : m'.beside m.global m.pending last = { m' with last := last } := by
  obtain ⟨global, -, pending⟩ : m'.global = m.global ∧ m'.depthLimit = m.depthLimit ∧
    m'.pending = m.pending := by simpa [surroundings] using around
  rw [← global, ← pending]
  rfl

theorem surroundings_deliver (host : Host σ) (m : Machine σ) (kind : FrameKind) (value : Value) :
    (deliver host m kind value).2.surroundings = m.surroundings := by
  unfold deliver
  split
  · split
    · rfl
    · rfl
  · rfl
  · rfl

theorem apply_around (host : Host σ) (m : Machine σ) (frame : Frame) (move : Move) :
    (apply host m frame move).2.surroundings = m.surroundings ∧
      ∀ value, (apply host m frame move).1 = .ok (.normal value) →
        (apply host m frame move).2.stack ≠ [] := by
  -- A call and a hook push a frame, and the other moves but `give` put the frame back.
  cases move with
  | descend child => exact ⟨rfl, by simp [apply]⟩
  | finish value =>
    simp only [apply]
    rcases finishNode frame value with e | finished
    · exact ⟨rfl, by simp⟩
    · exact ⟨rfl, by simp⟩
  | give value =>
    have given := surroundings_deliver host m frame.kind value
    simp only [apply]
    rcases delivered : deliver host m frame.kind value with ⟨e | _, m'⟩
    · rw [delivered] at given
      exact ⟨given, by simp⟩
    · rw [delivered] at given
      exact ⟨given, by simp⟩
  | call closure args =>
    simp only [apply]
    rcases push_cases { m with stack := frame :: m.stack } .function closure args with
      refused | ⟨scope, pushed⟩
    · rw [refused]
      exact ⟨rfl, by simp⟩
    · rw [pushed]
      rcases finishNode frame .undefined with e | finished
      · exact ⟨rfl, by simp⟩
      · exact ⟨rfl, by simp⟩
  | convert operand conversion closure =>
    simp only [apply]
    rcases push_cases { m with stack := { frame with previous := frame.current } :: m.stack }
      (.conversion operand conversion) closure [] with refused | ⟨scope, pushed⟩
    · rw [refused]
      exact ⟨rfl, by simp⟩
    · rw [pushed]
      exact ⟨rfl, by simp⟩

theorem stepFrame_around (host : Host σ) (m : Machine σ) (frame : Frame) (below : List Frame) :
    (stepFrame host m frame below).2.surroundings = m.surroundings ∧
      ∀ value, (stepFrame host m frame below).1 = .ok (.normal value) →
        (stepFrame host m frame below).2.stack ≠ [] := by
  simp only [stepFrame]
  rcases (Handler.node host frame.current).run ⟨frame, m.store⟩ with ⟨e | move, after⟩
  · exact ⟨rfl, by simp⟩
  · exact apply_around host { m with store := after.store, stack := below } after.frame move

section Running

variable (host) {m : Machine σ} (running : m.stack ≠ [])
include running

/-- A running frame makes the same step whatever lies beside it. -/
theorem rawStep_beside (global : Value) (pending : List Code) (last : Value) :
    rawStep host (m.beside global pending last) =
      ((rawStep host m).1, (rawStep host m).2.beside global pending
        ((ended? (rawStep host m)).getD last)) := by
  obtain ⟨frame, below, stack⟩ := List.exists_cons_of_ne_nil running
  simp only [rawStep, beside_stack, stack]
  exact stepFrame_beside host m global pending last frame below

theorem rawStep_around : (rawStep host m).2.surroundings = m.surroundings ∧
    ∀ value, (rawStep host m).1 = .ok (.normal value) → (rawStep host m).2.stack ≠ [] := by
  obtain ⟨frame, below, stack⟩ := List.exists_cons_of_ne_nil running
  simp only [rawStep, stack]
  exact stepFrame_around host m frame below

end Running

/-! ## Units that start -/

def started (m : Machine σ) : Machine σ :=
  match m.stack, m.pending with
  | [], code :: pending => { m with pending := pending, stack := [.start .topLevel m.global code] }
  | _, _ => m

section Started

variable (m : Machine σ)

theorem started_eq :
    m.started = { m with pending := m.started.pending, stack := m.started.stack } := by
  unfold started
  split
  · rfl
  · rfl

theorem started_last (last : Value) :
    { m with last := last }.started = { m.started with last := last } := by
  obtain ⟨store, global, depthLimit, pending, stack, was⟩ := m
  cases stack with
  | nil =>
    cases pending with
    | nil => rfl
    | cons code pending => rfl
  | cons frame below => rfl

theorem started_stack (busy : m.isIdle = false) : m.started.stack ≠ [] := by
  obtain ⟨store, global, depthLimit, pending, stack, last⟩ := m
  cases stack with
  | nil =>
    cases pending with
    | nil => cases busy
    | cons code pending => exact List.cons_ne_nil _ _
  | cons frame below => exact List.cons_ne_nil _ _

/-- A unit starts with the first step of its frame. -/
theorem rawStep_started (host : Host σ) : rawStep host m.started = rawStep host m := by
  obtain ⟨store, global, depthLimit, pending, stack, last⟩ := m
  cases stack with
  | nil =>
    cases pending with
    | nil => rfl
    | cons code pending => rfl
  | cons frame below => rfl

theorem rawStep_of_idle (idle : m.isIdle = true) :
    rawStep host m = (.ok (.normal .undefined), m) := by
  obtain ⟨stack, pending⟩ : m.stack = [] ∧ m.pending = [] := by simpa [isIdle] using idle
  simp only [rawStep, stack, pending]

end Started

theorem rawStep_last (m : Machine σ) (last : Value) :
    rawStep host { m with last := last } = ((rawStep host m).1,
      { (rawStep host m).2 with last := (ended? (rawStep host m)).getD last }) := by
  cases idle : m.isIdle with
  | true =>
    rw [rawStep_of_idle m idle, rawStep_of_idle { m with last := last } idle]
    rfl
  | false =>
    have running := m.started_stack idle
    rw [← rawStep_started m, ← rawStep_started { m with last := last }, started_last,
      ← beside_of_surroundings (rawStep_around host running).1]
    exact rawStep_beside host running m.started.global m.started.pending last

theorem step_setting (host : Host σ) (m : Machine σ) :
    (step host m).2.global = m.global ∧ (step host m).2.depthLimit = m.depthLimit := by
  have raw : (rawStep host m).2.global = m.global ∧
      (rawStep host m).2.depthLimit = m.depthLimit := by
    cases idle : m.isIdle with
    | true =>
      rw [rawStep_of_idle m idle]
      exact ⟨rfl, rfl⟩
    | false =>
      have around := (rawStep_around host (m.started_stack idle)).1
      rw [rawStep_started, started_eq] at around
      simp only [surroundings, Prod.mk.injEq] at around
      exact ⟨around.1, around.2.1⟩
  unfold step
  rcases run : rawStep host m with ⟨e | record, m'⟩
  · rw [run] at raw
    exact raw
  · rw [run] at raw
    exact raw

theorem returned_of_rawStep {m m' : Machine σ} {record : Record} (busy : m.isIdle = false)
    (stepped : rawStep host m = (.ok record, m')) (only : m'.stack = []) :
    ∃ value, record = .returned value := by
  have around := (rawStep_around host (m.started_stack busy)).2
  rw [rawStep_started, stepped] at around
  cases record with
  | normal value => exact absurd only (around value rfl)
  | returned value => exact ⟨value, rfl⟩

theorem rawStep_of_ok {m m' : Machine σ} {record : Record}
    (stepped : step host m = (.ok record, m')) : rawStep host m = (.ok record, m') := by
  have raw := rawStep_of_step (congrArg Prod.fst stepped)
  rwa [stepped] at raw

theorem step_last (host : Host σ) (m : Machine σ) (last : Value) :
    step host { m with last := last } = ((step host m).1,
      { (step host m).2 with last := (ended? (step host m)).getD last }) := by
  unfold step
  rw [rawStep_last]
  rcases rawStep host m with ⟨e | record, m'⟩
  · rfl
  · rfl

/-- The value of the last unit is the one of the unit that ended last. -/
theorem last_step (host : Host σ) (m : Machine σ) :
    (step host m).2.last = (ended? (step host m)).getD m.last :=
  congrArg (·.2.last) (step_last host m m.last)

theorem ended_of_step {m m' : Machine σ} {record : Record} (busy : m.isIdle = false)
    (stepped : step host m = (.ok record, m')) (idle : m'.isIdle = true) :
    ∃ value, ended? (.ok record, m') = some value := by
  obtain ⟨stack, -⟩ : m'.stack = [] ∧ m'.pending = [] := by simpa [isIdle] using idle
  obtain ⟨value, rfl⟩ := returned_of_rawStep busy (rawStep_of_ok stepped) stack
  exact ⟨value, by simp [ended?, depth, stack]⟩

/-! ## Runs -/

theorem execute_zero {m : Machine σ} (busy : m.isIdle = false) : execute host 0 m = none := by
  unfold execute
  rw [if_neg (by simp [busy])]

theorem execute_succ (fuel : Nat) {m : Machine σ} (busy : m.isIdle = false) :
    execute host (fuel + 1) m = match step host m with
      | (.ok _, m) => execute host fuel m
      | (.error e, m) => some (.error e, m) := by
  conv_lhs => unfold execute
  exact if_neg (by simp [busy])

end Machine

end StepScript
