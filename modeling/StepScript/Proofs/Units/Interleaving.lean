import StepScript.Proofs.Units.Beside

/-! Units that are fed while others run.

A host may feed units between any two steps. Whenever it does, a unit starts when all units
before it have ended, and it runs as if it were the only one: the units that wait lie beside
the frames, and no frame looks at them. So the steps fall into stretches, one for each unit, in
the order of the units, and the units come to what they come to one at a time.
-/

set_option autoImplicit false

namespace StepScript

variable {σ : Type} {host : Host σ}

namespace Machine

inductive Call where
  | feed (code : Code)
  | step

def fed : List Call → List Code
  | [] => []
  | .feed code :: calls => code :: fed calls
  | .step :: calls => fed calls

def current? (m : Machine σ) : Option Code :=
  m.stack.getLast?.map (·.code)

def unfinished (m : Machine σ) : List Code :=
  m.current?.toList ++ m.pending

/-- What is seen of a step: the unit it belongs to, what it did, and how many frames it left. -/
structure Entry where
  unit : Option Code
  record : Record
  depth : Nat

/-- What is seen of some calls, and the machine after them, unless a step fails. -/
def perform (host : Host σ) : Machine σ → List Call → Option (List Entry × Machine σ)
  | m, [] => some ([], m)
  | m, .feed code :: calls => perform host (m.feed code) calls
  | m, .step :: calls =>
    match step host m with
    | (.ok record, m') => (perform host m' calls).map fun (log, after) =>
      (⟨m.unfinished.head?, record, m'.depth⟩ :: log, after)
    | (.error _, _) => none

/-- The steps that belong to a unit; the others are those of a machine with nothing to do. -/
def work (log : List Entry) : List Entry :=
  log.filter (·.unit.isSome)

def Entry.returned? (entry : Entry) : Option Value :=
  match entry.record with
  | .returned value => if entry.depth = 0 then some value else none
  | .normal _ => none

def returns (log : List Entry) : List Value :=
  log.filterMap (·.returned?)

/-- One unit takes its steps after the other. The last step of each, and no other one, leaves no
frame, and it gives the value of the unit. -/
inductive InOrder : List Code → List Value → List Entry → Prop where
  | done : InOrder [] [] []
  | unit {unit : Code} {units : List Code} {value : Value} {values : List Value}
    {before after : List Entry}
    (own : ∀ entry ∈ before, entry.unit = some unit ∧ entry.depth ≠ 0)
    (rest : InOrder units values after) :
    InOrder (unit :: units) (value :: values) (before ++ ⟨some unit, .returned value, 0⟩ :: after)

/-- Each unit is fed when the one before has been executed, and is executed. -/
inductive OneByOne (host : Host σ) : Machine σ → List Code → List Value → Machine σ → Prop where
  | done (m : Machine σ) : OneByOne host m [] [] m
  | unit {m m' m'' : Machine σ} {unit : Code} {units : List Code} {fuel : Nat} {value : Value}
    {values : List Value} (first : execute host fuel (m.feed unit) = some (.ok value, m'))
    (rest : OneByOne host m' units values m'') :
    OneByOne host m (unit :: units) (value :: values) m''

/-! ## One step -/

theorem last_code_of_same {frame frame' : Frame} (same : frame.Same frame') (below : List Frame) :
    (frame' :: below).getLast?.map (·.code) = (frame :: below).getLast?.map (·.code) := by
  cases below with
  | nil => exact congrArg some same.code
  | cons caller rest => rw [List.getLast?_cons_cons, List.getLast?_cons_cons]

theorem pending_of_rawStep {m m' : Machine σ} {record : Record} (busy : m.isIdle = false)
    (stepped : rawStep host m = (.ok record, m')) : m'.pending = m.started.pending := by
  have around := (rawStep_around host (m.started_stack busy)).1
  rw [rawStep_started, stepped] at around
  exact congrArg (·.2.2) around

theorem unfinished_started (m : Machine σ) : m.started.unfinished = m.unfinished := by
  unfold started
  split
  · next stack waits => simp [unfinished, current?, stack, waits, Frame.start]
  · rfl

theorem stack_of_running {m : Machine σ} {frame : Frame} {below : List Frame}
    (running : m.running? = some (frame, below)) : m.started.stack = frame :: below := by
  obtain ⟨store, global, depthLimit, pending, stack, last⟩ := m
  cases stack with
  | nil =>
    cases pending with
    | nil => cases running
    | cons code pending =>
      cases running
      rfl
  | cons top rest =>
    cases running
    rfl

theorem running_of_busy {m : Machine σ} (busy : m.isIdle = false) :
    ∃ frame below, m.running? = some (frame, below) := by
  unfold running?
  split
  · exact ⟨_, _, rfl⟩
  · exact ⟨_, _, rfl⟩
  case h_3 none waits => simp [isIdle, none, waits] at busy

theorem unfinished_step (keeps : host.Keeps) {m m' : Machine σ} {record : Record}
    (orderly : m.Orderly) (busy : m.isIdle = false) (stepped : step host m = (.ok record, m')) :
    (m'.stack ≠ [] ∧ m'.unfinished = m.unfinished) ∨
      ∃ unit value, m'.stack = [] ∧ record = .returned value ∧
        m.unfinished = unit :: m'.pending := by
  obtain ⟨frame, below, running⟩ := running_of_busy busy
  obtain ⟨tidy, -, linked⟩ := orderly.running running
  have done : (step host m).1 = .ok record := congrArg Prod.fst stepped
  have transition := transition_step keeps orderly.sound.bodies tidy linked running done
  obtain rfl : (step host m).2 = m' := congrArg Prod.snd stepped
  have whole : m.unfinished =
      ((frame :: below).getLast?.map (·.code)).toList ++ (step host m).2.pending := by
    rw [← unfinished_started, unfinished, current?, stack_of_running running,
      pending_of_rawStep busy (rawStep_of_step done)]
  cases transition with
  | worked same ready stack =>
    refine .inl ⟨by simp [stack], ?_⟩
    rw [whole, unfinished, current?, stack, last_code_of_same same]
  | pushed room same origin awaits ready rooted stack =>
    refine .inl ⟨by simp [stack], ?_⟩
    rw [whole, unfinished, current?, stack, List.getLast?_cons_cons, last_code_of_same same]
  | ended kind only stack =>
    subst only
    exact .inr ⟨_, _, stack, rfl, whole⟩
  | delivered below' receives stack =>
    subst below'
    refine .inl ⟨by simp [stack], ?_⟩
    rw [whole, unfinished, current?, stack, last_code_of_same receives.same,
      List.getLast?_cons_cons]

/-! ## The order of the steps -/

theorem unfinished_ne_nil {m : Machine σ} (busy : m.isIdle = false) : m.unfinished ≠ [] := by
  intro none
  simp only [unfinished, current?, List.append_eq_nil_iff, Option.toList_eq_nil_iff,
    Option.map_eq_none_iff, List.getLast?_eq_none_iff] at none
  simp [isIdle, none] at busy

theorem unfinished_of_stack {m : Machine σ} (only : m.stack = []) : m.unfinished = m.pending := by
  rw [unfinished, current?, only]
  rfl

theorem InOrder.before {unit : Code} {units : List Code} {values : List Value} {log : List Entry}
    {entry : Entry} (order : InOrder (unit :: units) values log) (own : entry.unit = some unit)
    (deep : entry.depth ≠ 0) : InOrder (unit :: units) values (entry :: log) := by
  cases order with
  | unit steps rest => exact .unit (List.forall_mem_cons.mpr ⟨⟨own, deep⟩, steps⟩) rest

/-- The steps after the first one fall into stretches, and with it they do. -/
theorem inOrder_step (keeps : host.Keeps) {m m' : Machine σ} {record : Record}
    (orderly : m.Orderly) (busy : m.isIdle = false) (stepped : step host m = (.ok record, m'))
    {units : List Code} {log : List Entry}
    (order : InOrder (m'.unfinished ++ units) (returns log) (work log)) :
    InOrder (m.unfinished ++ units) (returns (⟨m.unfinished.head?, record, m'.depth⟩ :: log))
      (work (⟨m.unfinished.head?, record, m'.depth⟩ :: log)) := by
  rcases unfinished_step keeps orderly busy stepped with
    ⟨runs, same⟩ | ⟨unit, value, only, rfl, first⟩
  · obtain ⟨unit, waiting, whole⟩ := List.exists_cons_of_ne_nil (unfinished_ne_nil busy)
    have deep : m'.depth ≠ 0 := by simpa [depth] using runs
    have none : Entry.returned? ⟨some unit, record, m'.depth⟩ = none := by
      cases record <;> simp [Entry.returned?, deep]
    rw [same, whole] at order
    rw [whole, List.head?_cons, returns, List.filterMap_cons_none none]
    exact order.before rfl deep
  · have level : m'.depth = 0 := by simp [depth, only]
    rw [unfinished_of_stack only] at order
    rw [first, List.head?_cons, level]
    have none : ∀ entry ∈ ([] : List Entry), entry.unit = some unit ∧ entry.depth ≠ 0 := by simp
    exact .unit none order

/-! ## One unit at a time -/

def alone (m : Machine σ) (last : Value) : Machine σ :=
  m.beside m.global [] last

/-- The unit that runs is executed to its end, and then the others are, one at a time. -/
inductive Finishes (host : Host σ) (m : Machine σ) (units : List Code) :
    List Value → Machine σ → Prop where
  | intro {m' m'' : Machine σ} {fuel : Nat} {value : Value} {values : List Value}
    (first : execute host fuel m = some (.ok value, m'))
    (rest : OneByOne host m' units values m'') :
    Finishes host m units (value :: values) m''

/-- Without the units that wait, and with these fed later, the machine comes to the same values and
to the same store. -/
structure Separates (host : Host σ) (m : Machine σ) (units : List Code) (values : List Value)
    (s : Store σ) : Prop where
  rested : m.stack = [] → ∀ last, ∃ m',
    OneByOne host (m.alone last) units values m' ∧ m'.store = s
  running : m.stack ≠ [] → ∀ last, ∃ m',
    Finishes host (m.alone last) units values m' ∧ m'.store = s

theorem step_started (m : Machine σ) : step host m.started = step host m := by
  rw [step, step, rawStep_started]

theorem step_alone {m m' : Machine σ} {record : Record} (running : m.stack ≠ [])
    (stepped : step host m = (.ok record, m')) (last : Value) :
    step host (m.alone last) = (.ok record, m'.alone ((ended? (.ok record, m')).getD last)) := by
  have raw := rawStep_of_ok stepped
  have global : m'.global = m.global := by
    have setting := (step_setting host m).1
    rwa [stepped] at setting
  have beside := rawStep_beside host running m.global [] last
  rw [raw] at beside
  simp only [alone, step, beside, global]

theorem started_alone {m : Machine σ} {code : Code} {pending : List Code} (rested : m.stack = [])
    (waits : m.pending = code :: pending) (last : Value) :
    ((m.alone last).feed code).started = m.started.alone last := by
  obtain ⟨store, global, depthLimit, pending', stack, was⟩ := m
  subst rested waits
  rfl

/-- Where the machine after a step separates the units, the machine before it does so too. `R` is
this machine with the running unit only. -/
theorem finishes_of_step {m' R : Machine σ} {record : Record} {last : Value} {units : List Code}
    {log : List Entry} {s : Store σ} (busy : R.isIdle = false)
    (stepped : step host R = (.ok record, m'.alone ((ended? (.ok record, m')).getD last)))
    (gone : m'.stack = [] → ∃ value, record = .returned value)
    (separates : Separates host m' units (returns log) s) (unit? : Option Code) :
    ∃ m'', Finishes host R units (returns (⟨unit?, record, m'.depth⟩ :: log)) m'' ∧
      m''.store = s := by
  by_cases only : m'.stack = []
  · obtain ⟨value, rfl⟩ := gone only
    have level : m'.depth = 0 := by simp [depth, only]
    obtain ⟨m'', rest, store⟩ := separates.rested only .undefined
    refine ⟨m'', ?_, store⟩
    have first : execute host 1 R = some (.ok value, m'.alone .undefined) := by
      have idle : (m'.alone value).isIdle = true := by simp [alone, isIdle, beside, only]
      have ended : ended? (.ok (.returned value), m') = some value := by simp [ended?, level]
      rw [ended, Option.getD_some] at stepped
      rw [execute_succ 0 busy, stepped]
      exact execute_of_idle host idle 0
    rw [level]
    exact .intro first rest
  · have deep : m'.depth ≠ 0 := by simpa [depth] using only
    have none : ended? (.ok record, m') = none := by
      cases record <;> simp [ended?, deep]
    have same : returns (⟨unit?, record, m'.depth⟩ :: log) = returns log :=
      List.filterMap_cons_none (by cases record <;> simp [Entry.returned?, deep])
    rw [same]
    rw [none, Option.getD_none] at stepped
    generalize returns log = values at separates ⊢
    obtain ⟨m'', ends, store⟩ := separates.running only last
    refine ⟨m'', ?_, store⟩
    cases ends with
    | @intro _ _ fuel _ _ first rest =>
      have first' : execute host (fuel + 1) R = execute host fuel (m'.alone last) := by
        rw [execute_succ fuel busy, stepped]
      exact .intro (first'.trans first) rest

theorem separates_step {m m' : Machine σ} {record : Record} (busy : m.isIdle = false)
    (stepped : step host m = (.ok record, m')) {units : List Code} {log : List Entry} {s : Store σ}
    (separates : Separates host m' (m'.pending ++ units) (returns log) s) (unit? : Option Code) :
    Separates host m (m.pending ++ units) (returns (⟨unit?, record, m'.depth⟩ :: log)) s := by
  have raw := rawStep_of_ok stepped
  have gone := returned_of_rawStep busy raw
  rw [pending_of_rawStep busy raw] at separates
  refine ⟨fun rested last => ?_, fun running last => ?_⟩
  · -- The next unit starts with this step.
    obtain ⟨code, pending, waits⟩ := List.exists_cons_of_ne_nil (l := m.pending) (by
      intro none
      simp [isIdle, rested, none] at busy)
    have fed : ((m.alone last).feed code).isIdle = false := by simp [isIdle, feed]
    have first : step host ((m.alone last).feed code) =
        (.ok record, m'.alone ((ended? (.ok record, m')).getD last)) := by
      rw [← step_started, started_alone rested waits]
      exact step_alone (m.started_stack busy) ((step_started m).trans stepped) last
    obtain ⟨m'', ends, store⟩ := finishes_of_step fed first gone separates unit?
    refine ⟨m'', ?_, store⟩
    have kept : m.started.pending = pending := by simp only [started, rested, waits]
    rw [waits, ← kept]
    generalize returns _ = values at ends ⊢
    cases ends with
    | intro first rest => exact .unit first rest
  · have runs : (m.alone last).isIdle = false := by simp [alone, isIdle, beside, running]
    have same : m.started = m := by
      obtain ⟨frame, below, stack⟩ := List.exists_cons_of_ne_nil running
      simp only [started, stack]
    rw [same] at separates
    exact finishes_of_step runs (step_alone running stepped last) gone separates unit?

/-! ## Whole runs -/

theorem orderly_feed {m : Machine σ} (orderly : m.Orderly) {source : String} {code : Code}
    (parsed : parse source = .ok code) : (m.feed code).Orderly := by
  refine ⟨⟨orderly.sound.bodies, orderly.sound.poised, fun other member => ?_⟩, orderly.tidy,
    orderly.linked⟩
  rcases List.mem_append.mp member with old | new
  · exact orderly.sound.units other old
  · rw [List.mem_singleton.mp new]
    exact rooted_parse parsed

/-- By induction over the calls, for a machine that may have a unit running and others waiting. -/
theorem inOrder_and_separates (keeps : host.Keeps) {after : Machine σ} (done : after.isIdle = true)
    {calls : List Call} (parsed : ∀ code ∈ fed calls, ∃ source, parse source = .ok code)
    {m : Machine σ} (orderly : m.Orderly) {log : List Entry}
    (performed : perform host m calls = some (log, after)) :
    InOrder (m.unfinished ++ fed calls) (returns log) (work log) ∧
      Separates host m (m.pending ++ fed calls) (returns log) after.store := by
  induction calls generalizing m log with
  | nil =>
    cases performed
    obtain ⟨stack, pending⟩ : after.stack = [] ∧ after.pending = [] := by simpa [isIdle] using done
    rw [unfinished_of_stack stack, pending]
    exact ⟨.done, fun _ last => ⟨_, .done _, rfl⟩, fun running => absurd stack running⟩
  | cons call calls ih =>
    cases call with
    | feed code =>
      obtain ⟨⟨source, isCode⟩, rest⟩ := List.forall_mem_cons.mp parsed
      have ends := ih rest (orderly_feed orderly isCode) performed
      have later : (m.feed code).pending ++ fed calls = m.pending ++ fed (.feed code :: calls) := by
        simp [feed, fed]
      obtain ⟨order, rested, running⟩ := ends
      rw [later] at rested running
      refine ⟨?_, rested, running⟩
      rw [unfinished, List.append_assoc, ← later, ← List.append_assoc]
      exact order
    | step =>
      rw [perform] at performed
      rcases stepped : step host m with ⟨e | record, m'⟩
      · rw [stepped] at performed
        cases performed
      rw [stepped] at performed
      obtain ⟨⟨log', after'⟩, performed', same⟩ := Option.map_eq_some_iff.mp performed
      cases same
      have orderly' : m'.Orderly := by
        have orderly' : (step host m).2.Orderly := orderly_step keeps orderly
        rwa [stepped] at orderly'
      obtain ⟨order, separates⟩ := ih parsed orderly' performed'
      cases busy : m.isIdle with
      | false =>
        exact ⟨inOrder_step keeps orderly busy stepped order,
          separates_step busy stepped separates _⟩
      | true =>
        -- A machine with nothing to do stays as it is, and its step belongs to no unit.
        obtain ⟨stack, pending⟩ : m.stack = [] ∧ m.pending = [] := by simpa [isIdle] using busy
        simp only [step, rawStep, stack, pending] at stepped
        cases stepped
        rw [unfinished_of_stack stack, pending] at *
        exact ⟨order, separates⟩

/-- However feeding and stepping are interleaved, the units run one after another in the order in
which they are fed, and they come to the values and to the store that they come to one at a time. -/
theorem inOrder_of_perform (keeps : host.Keeps) {m : Machine σ} (idle : m.isIdle = true)
    (bodies : m.store.Bodies) {calls : List Call}
    (parsed : ∀ code ∈ fed calls, ∃ source, parse source = .ok code) {log : List Entry}
    {after : Machine σ} (performed : perform host m calls = some (log, after))
    (done : after.isIdle = true) :
    InOrder (fed calls) (returns log) (work log) ∧
      ∃ m', OneByOne host m (fed calls) (returns log) m' ∧ m'.store = after.store := by
  obtain ⟨stack, pending⟩ : m.stack = [] ∧ m.pending = [] := by simpa [isIdle] using idle
  have orderly : m.Orderly :=
    ⟨⟨bodies, by simp [stack], by simp [pending]⟩, by simp [stack], by rw [stack]; trivial⟩
  obtain ⟨order, separates⟩ := inOrder_and_separates keeps done parsed orderly performed
  rw [unfinished_of_stack stack, pending] at order
  rw [pending] at separates
  have same : m.alone m.last = m := by rw [alone, beside, ← pending]
  obtain ⟨m', ran, store⟩ := separates.rested stack m.last
  rw [same] at ran
  exact ⟨order, m', ran, store⟩

/-- The second unit is fed while the first one runs. -/
theorem inOrder_of_perform_second_unit :
    let host : Host Unit := ⟨fun _ _ => pure .undefined⟩
    let unit (text : String) := Outline.ofRose
      (.node (.statement .unit) [.node (.statement .expression)
        [.leaf (.literal (.string text))]])
    let calls := [.feed (unit "a"), .step, .step, .feed (unit "b")] ++ List.replicate 8 .step
    let steps (text : String) : List Entry :=
      [⟨some (unit text), .normal .undefined, 1⟩, ⟨some (unit text), .normal .undefined, 1⟩,
        ⟨some (unit text), .normal (.string text), 1⟩,
        ⟨some (unit text), .normal (.string text), 1⟩,
        ⟨some (unit text), .returned (.string text), 0⟩]
    let m := Machine.start (Store.empty ()) .null 512
    let after := { m with last := .string "b" }
    host.Keeps ∧ parse "'a';" = .ok (unit "a") ∧ parse "'b';" = .ok (unit "b") ∧
      perform host m calls = some (steps "a" ++ steps "b", after) ∧
      InOrder [unit "a", unit "b"] [.string "a", .string "b"] (steps "a" ++ steps "b") ∧
      ∃ m', OneByOne host m [unit "a", unit "b"] [.string "a", .string "b"] m' ∧
        m'.store = m.store := by
  intro host unit calls steps m after
  have keeps : host.Keeps := fun _ _ => .pure _
  have first : parse "'a';" = .ok (unit "a") := by cbv
  have second : parse "'b';" = .ok (unit "b") := by cbv
  have parsed : ∀ code ∈ fed calls, ∃ source, parse source = .ok code :=
    List.forall_mem_cons.mpr ⟨⟨_, first⟩, List.forall_mem_cons.mpr ⟨⟨_, second⟩, by simp [fed]⟩⟩
  have performed : perform host m calls = some (steps "a" ++ steps "b", after) := by cbv
  exact ⟨keeps, first, second, performed,
    inOrder_of_perform keeps rfl (Store.bodies_empty ()) parsed performed rfl⟩

end Machine

end StepScript
