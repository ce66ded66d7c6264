import StepScript.Proofs.Stack.Discipline

/-! Calls and hooks nest.

A frame that is pushed gives its value to the frame that asked for it. While it
runs, and whatever it pushes in turn, the frames below it are left as they are;
when it ends, the one right below gets the value, under the call that was made or
under the operand that was to be converted, and nothing else of it changes. No
more frames run than the limit allows, and only a call or a hook that would be
one too many fails for it.
-/

set_option autoImplicit false

namespace StepScript.Machine

variable {σ : Type} {host : Host σ}

/-! ## Runs -/

/-- What happens between two looks at a machine: it gets a unit, it makes a step, or
something else is done to its store, its scope or its last value. -/
inductive Turn (host : Host σ) : Machine σ → Machine σ → Prop where
  | feed (m : Machine σ) {source : String} {code : Code} (parsed : parse source = .ok code) :
    Turn host m (m.feed code)
  | step (m : Machine σ) : Turn host m (step host m).2
  | change (m : Machine σ) {store : Store σ} (bodies : store.Bodies) (global last : Value) :
    Turn host m { m with store := store, global := global, last := last }

/-- The machines that come about with one limit on the number of frames. -/
inductive Driven (host : Host σ) : Machine σ → Prop where
  | start {store : Store σ} (bodies : store.Bodies) (global : Value) (depthLimit : Nat) :
    Driven host (Machine.start store global depthLimit)
  | turn {m m' : Machine σ} (before : Driven host m) (turn : Turn host m m') : Driven host m'

/-- Turns after each of which more than `d` frames run. -/
inductive Above (host : Host σ) (d : Nat) (m : Machine σ) : Machine σ → Prop where
  | refl : Above host d m m
  | turn {m' m'' : Machine σ} (run : Above host d m m') (turn : Turn host m' m'')
    (deep : d < m''.depth) : Above host d m m''

theorem Driven.steps {m : Machine σ} (driven : Driven host m) (count : Nat) :
    Driven host (Nat.repeat (fun m => (step host m).2) count m) := by
  induction count with
  | zero => exact driven
  | succ count ih => exact .turn ih (.step _)

theorem driven_after {source : String} {code : Code} (parsed : parse source = .ok code)
    (count : Nat) : Driven Bare.host (Bare.after code count) :=
  .steps (.turn (.start Bare.bodies _ 512) (.feed _ parsed)) count

theorem Driven.reachable {m : Machine σ} (driven : Driven host m) : Reachable host m := by
  induction driven with
  | start bodies global depthLimit => exact .start bodies global depthLimit
  | turn before turn reachable =>
    cases turn with
    | feed parsed => exact .feed reachable parsed
    | step => exact .step reachable
    | change bodies global last => exact .change reachable bodies global last _

theorem Turn.orderly (keeps : host.Keeps) {m m' : Machine σ} (turn : Turn host m m')
    (orderly : m.Orderly) : m'.Orderly := by
  cases turn with
  | feed parsed =>
    refine ⟨⟨orderly.sound.bodies, orderly.sound.poised, fun code member => ?_⟩, orderly.tidy,
      orderly.linked⟩
    rcases List.mem_append.mp member with old | new
    · exact orderly.sound.units code old
    · rw [List.mem_singleton.mp new]
      exact rooted_parse parsed
  | step => exact orderly_step keeps orderly
  | change bodies global last =>
    exact ⟨⟨bodies, orderly.sound.poised, orderly.sound.units⟩, orderly.tidy, orderly.linked⟩

theorem Above.orderly (keeps : host.Keeps) {d : Nat} {m m' : Machine σ} (run : Above host d m m')
    (orderly : m.Orderly) : m'.Orderly := by
  induction run with
  | refl => exact orderly
  | turn _ turn _ orderly => exact turn.orderly keeps orderly

/-! ## What one transition does to a run -/

section Transition

variable {s : Store σ} {depthLimit : Nat} {frame : Frame} {below : List Frame} {record : Record}
  {m : Machine σ} (transition : Transition host s depthLimit frame below record m)
include transition

theorem Transition.bounded (bounded : below.length + 1 ≤ max 1 depthLimit) :
    m.depth ≤ max 1 m.depthLimit := by
  unfold depth
  cases transition with
  | worked same tidy stack limit =>
    rw [stack, limit, List.length_cons]
    exact bounded
  | pushed room same origin awaits tidy rooted stack limit =>
    rw [stack, limit, List.length_cons, List.length_cons]
    omega
  | ended kind only stack limit =>
    rw [stack]
    exact Nat.zero_le _
  | delivered whole receives stack limit =>
    rw [stack, limit]
    rw [whole, List.length_cons] at bounded
    rw [List.length_cons]
    omega

/-- Frames that do not run stay as they are, and the one on top of them stays what it was pushed
for, as long as it is there. -/
theorem Transition.above {upper base : List Frame} {last : Frame}
    (stack : frame :: below = upper ++ last :: base) (deep : base.length < m.depth) :
    ∃ upper' last', m.stack = upper' ++ last' :: base ∧ last'.kind = last.kind := by
  unfold depth at deep
  -- The frame in question is the running one or lies below it.
  cases upper with
  | nil =>
    cases stack
    cases transition with
    | worked same tidy stack => exact ⟨[], _, stack, same.kind⟩
    | pushed room same origin awaits tidy rooted stack => exact ⟨[_], _, stack, same.kind⟩
    | ended kind only stack =>
      rw [stack] at deep
      cases deep
    | delivered whole receives stack =>
      rw [stack, whole] at deep
      simp at deep
  | cons first upper =>
    cases stack
    cases transition with
    | worked same tidy stack => exact ⟨_ :: upper, last, stack, rfl⟩
    | pushed room same origin awaits tidy rooted stack => exact ⟨_ :: _ :: upper, last, stack, rfl⟩
    | ended kind only stack => simp at only
    | delivered whole receives stack =>
      cases upper with
      | nil =>
        cases whole
        exact ⟨[], _, stack, receives.same.kind⟩
      | cons caller upper =>
        cases whole
        exact ⟨_ :: upper, last, stack, rfl⟩

theorem Transition.returned {upper base : List Frame} {last : Frame} {value : Value}
    (stack : frame :: below = upper ++ last :: base) (isReturn : record = .returned value)
    (level : m.depth = base.length) (nonempty : base ≠ []) :
    ∃ caller rest caller', base = caller :: rest ∧ m.stack = caller' :: rest ∧
      caller.Receives host last.kind value s m.store caller' := by
  unfold depth at level
  cases transition with
  | worked => cases isReturn
  | pushed => cases isReturn
  | ended kind only stack' =>
    rw [stack'] at level
    exact absurd (List.length_eq_zero_iff.mp level.symm) nonempty
  | delivered whole receives stack' =>
    cases isReturn
    rw [stack', List.length_cons] at level
    cases upper with
    | nil =>
      cases stack
      exact ⟨_, _, _, whole, stack', receives⟩
    | cons first upper =>
      have count := congrArg List.length stack
      rw [whole] at count
      simp at count
      omega

end Transition

theorem Orderly.step_cases (keeps : host.Keeps) {m : Machine σ} (orderly : m.Orderly)
    {frame : Frame} {below : List Frame} (stack : m.stack = frame :: below) :
    (∃ e, (step host m).1 = .error e ∧ (step host m).2.stack = []) ∨
      ∃ record, (step host m).1 = .ok record ∧
        Transition host m.store m.depthLimit frame below record (step host m).2 := by
  have running : m.running? = some (frame, below) := by rw [running?, stack]
  obtain ⟨tidy, -, linked⟩ := orderly.running running
  rcases stepped : (step host m).1 with e | record
  · exact .inl ⟨e, rfl, stack_of_error stepped⟩
  · exact .inr ⟨record, rfl,
      transition_step keeps orderly.sound.bodies tidy linked running stepped⟩

/-- While more frames run than `base` has, these are left as they are. -/
theorem Above.stands (keeps : host.Keeps) {m m' : Machine σ} (orderly : m.Orderly)
    {base : List Frame} {kind : FrameKind} (run : Above host base.length m m')
    (stands : ∃ upper last, m.stack = upper ++ last :: base ∧ last.kind = kind) :
    ∃ upper last, m'.stack = upper ++ last :: base ∧ last.kind = kind := by
  -- By induction on the turns, none of which gets down to the frames of `base`.
  induction run with
  | refl => exact stands
  | @turn m' m'' run turn deep stands =>
    obtain ⟨upper, last, stack, isKind⟩ := stands
    cases turn with
    | feed => exact ⟨upper, last, stack, isKind⟩
    | change => exact ⟨upper, last, stack, isKind⟩
    | step =>
      obtain ⟨frame, below, whole⟩ : ∃ frame below, upper ++ last :: base = frame :: below := by
        cases upper with
        | nil => exact ⟨_, _, rfl⟩
        | cons frame upper => exact ⟨_, _, rfl⟩
      rcases (run.orderly keeps orderly).step_cases keeps (stack.trans whole) with
        ⟨e, -, cleared⟩ | ⟨record, -, transition⟩
      · rw [depth, cleared] at deep
        cases deep
      · obtain ⟨upper', last', stack', same⟩ := transition.above whole.symm deep
        exact ⟨upper', last', stack', same.trans isKind⟩

/-- A frame that gives a value where the frames of `base` are left was pushed on them, and
the first of them receives it. -/
theorem Orderly.received (keeps : host.Keeps) {m : Machine σ} (orderly : m.Orderly)
    {base : List Frame} {kind : FrameKind} {value : Value}
    (stands : ∃ upper last, m.stack = upper ++ last :: base ∧ last.kind = kind)
    (returned : (step host m).1 = .ok (.returned value))
    (level : (step host m).2.depth = base.length) (nonempty : base ≠ []) :
    ∃ caller rest caller', base = caller :: rest ∧ (step host m).2.stack = caller' :: rest ∧
      caller.Receives host kind value m.store (step host m).2.store caller' := by
  obtain ⟨upper, last, stack, rfl⟩ := stands
  obtain ⟨frame, below, whole⟩ : ∃ frame below, upper ++ last :: base = frame :: below := by
    cases upper with
    | nil => exact ⟨_, _, rfl⟩
    | cons frame upper => exact ⟨_, _, rfl⟩
  rcases orderly.step_cases keeps (stack.trans whole) with
    ⟨e, failed, -⟩ | ⟨record, same, transition⟩
  · rw [failed] at returned
    cases returned
  · exact transition.returned whole.symm (Except.ok.inj (same.symm.trans returned)) level nonempty

/-! ## The limit -/

theorem Driven.bounded (keeps : host.Keeps) {m : Machine σ} (driven : Driven host m) :
    m.depth ≤ max 1 m.depthLimit := by
  -- By induction on the turns; a step pushes a frame only where there is room for it.
  induction driven with
  | start bodies global depthLimit => exact Nat.zero_le _
  | @turn m m' before turn bounded =>
    cases turn with
    | feed => exact bounded
    | change => exact bounded
    | step =>
      have orderly := orderly_of_reachable keeps before.reachable
      rcases stepped : (step host m).1 with e | record
      · rw [depth, stack_of_error stepped]
        exact Nat.zero_le _
      · cases running : m.running? with
        | none =>
          rw [step_of_idle running]
          exact bounded
        | some pair =>
          obtain ⟨frame, below⟩ := pair
          obtain ⟨tidy, -, linked⟩ := orderly.running running
          have transition := transition_step keeps orderly.sound.bodies tidy linked running stepped
          refine transition.bounded ?_
          unfold running? at running
          split at running
          case h_1 whole =>
            cases running
            rw [depth, whole] at bounded
            exact bounded
          case h_2 =>
            cases running
            exact Nat.le_max_left ..
          case h_3 => cases running

def Starts (host : Host σ) (m : Machine σ) : Prop :=
  ∃ frame below move, m.stack = frame :: below ∧
    ((Handler.node host frame.current).run ⟨frame, m.store⟩).1 = .ok move ∧ move.starts = true

theorem stepFrame_tooManyCalls (keeps : host.Keeps) {m : Machine σ} {frame : Frame}
    {below : List Frame} (bodies : m.store.Bodies) (tidy : frame.Tidy) :
    (stepFrame host m frame below).1 = .error (.uncaught .tooManyCalls) ↔
      (∃ move, ((Handler.node host frame.current).run ⟨frame, m.store⟩).1 = .ok move ∧
        move.starts = true) ∧ m.depthLimit ≤ below.length + 1 := by
  have fine := Handler.safe_node tidy.poised keeps ⟨frame, m.store⟩ ⟨rfl, rfl, rfl, bodies⟩
  have left := Handler.tidies_node tidy.poised host tidy.outside ⟨frame, m.store⟩
    ⟨rfl, tidy.kept, tidy.settled⟩
  unfold stepFrame
  rcases run : (Handler.node host frame.current).run ⟨frame, m.store⟩ with ⟨e | move, l⟩
  · rw [run] at left
    have other : e ≠ .uncaught .tooManyCalls := left
    simp [other]
  · rw [run] at fine
    obtain ⟨steady, legal⟩ := fine
    have same : move.Legal l.frame := by
      unfold Move.Legal at legal ⊢
      rw [steady.code, steady.current]
      exact legal
    have limit := apply_tooManyCalls host { m with store := l.store, stack := below } same
    simp only [Except.ok.injEq, exists_eq_left']
    exact limit

theorem step_tooManyCalls (keeps : host.Keeps) {m : Machine σ} (orderly : m.Orderly) :
    (step host m).1 = .error (.uncaught .tooManyCalls) ↔
      m.Starts host ∧ m.depthLimit ≤ m.depth := by
  rw [step_fst]
  unfold Starts depth
  cases stack : m.stack with
  | cons frame below =>
    have step : rawStep host m = stepFrame host m frame below := by simp only [rawStep, stack]
    have tidy := orderly.tidy frame (by rw [stack]; exact List.mem_cons_self)
    rw [step, stepFrame_tooManyCalls keeps orderly.sound.bodies tidy]
    constructor
    · rintro ⟨⟨move, run, starts⟩, full⟩
      exact ⟨⟨frame, below, move, rfl, run, starts⟩, full⟩
    · rintro ⟨⟨_, _, move, same, run, starts⟩, full⟩
      cases same
      exact ⟨⟨move, run, starts⟩, full⟩
  | nil =>
    refine ⟨fun failed => ?_, by rintro ⟨⟨_, _, _, same, _⟩, _⟩; cases same⟩
    cases waits : m.pending with
    | nil => simp [rawStep, stack, waits] at failed
    | cons code pending =>
      -- The root of a unit is no call and does not fold.
      have rooted := orderly.sound.units code (by rw [waits]; exact List.mem_cons_self)
      have tidy : (Frame.start .topLevel m.global code).Tidy := .start _ _ rooted (.inl rfl)
      have step : rawStep host m = stepFrame host { m with pending := pending }
          (.start .topLevel m.global code) [] := by simp only [rawStep, stack, waits]
      rw [step, stepFrame_tooManyCalls (m := { m with pending := pending }) keeps
        orderly.sound.bodies tidy] at failed
      obtain ⟨⟨move, run, starts⟩, -⟩ := failed
      have left := Handler.tidies_node tidy.poised host tidy.outside
        ⟨.start .topLevel m.global code, m.store⟩ ⟨rfl, tidy.kept, tidy.settled⟩
      rcases result : (Handler.node host (Frame.start .topLevel m.global code).current).run
        ⟨.start .topLevel m.global code, m.store⟩ with ⟨e | move', l⟩
      · rw [result] at run
        cases run
      · rw [result] at run left
        cases run
        obtain ⟨M, C, -, leaves⟩ := left
        have root : code.get? 0 = some (.statement .unit) := rooted.get?_zero
        cases move with
        | descend | finish | give => cases starts
        | call =>
          cases root.symm.trans leaves.1
        | convert =>
          obtain ⟨node, found, folds⟩ := leaves.1.folds
          cases root.symm.trans found
          cases folds

/-! ## Discipline -/

/-- What holds of the frames of a machine between two turns. -/
structure Disciplined (host : Host σ) (m : Machine σ) : Prop where
  /-- A unit is at the bottom, all else are calls and hooks. -/
  stack : m.stack = [] ∨ ∃ upper bottom, m.stack = upper ++ [bottom] ∧ bottom.kind = .topLevel ∧
    ∀ frame ∈ upper, frame.kind ≠ .topLevel
  bounded : m.depth ≤ max 1 m.depthLimit
  /-- A range error says that a call or a hook would be one too many, and nothing else. -/
  limited : (∃ fault, (step host m).1 = .error (.uncaught fault) ∧ fault.class = .range) ↔
    m.Starts host ∧ m.depthLimit ≤ m.depth
  /-- Below a call is the parent of the calling node, below a hook the node that folds. -/
  waiting : ∀ above top caller rest, m.stack = above ++ top :: caller :: rest →
    caller.Awaits top.kind
  /-- The frame that a step pushes gives its value to the node that was worked on in that step. -/
  returns : ∀ frame below, m.stack = frame :: below → (step host m).2.depth = m.depth + 1 →
    ∃ top caller, (step host m).2.stack = top :: caller :: below ∧ frame.Same caller ∧
      caller.previous = frame.current ∧
      ∀ m', Above host m.depth (step host m).2 m' →
        (∃ upper, upper ≠ [] ∧ m'.stack = upper ++ caller :: below) ∧
        ∀ value, (step host m').1 = .ok (.returned value) → (step host m').2.depth = m.depth →
          ∃ caller', (step host m').2.stack = caller' :: below ∧
            caller.Receives host top.kind value m'.store (step host m').2.store caller'

theorem linked_stack : ∀ {frames : List Frame}, Linked frames →
    frames = [] ∨ ∃ upper bottom, frames = upper ++ [bottom] ∧ bottom.kind = .topLevel ∧
      ∀ frame ∈ upper, frame.kind ≠ .topLevel
  | [], _ => .inl rfl
  | [bottom], isUnit => .inr ⟨[], bottom, rfl, isUnit, by simp⟩
  | top :: caller :: rest, ⟨awaits, linked⟩ => by
    rcases linked_stack linked with empty | ⟨upper, bottom, whole, isUnit, inner⟩
    · cases empty
    · refine .inr ⟨top :: upper, bottom, by rw [whole]; rfl, isUnit,
        List.forall_mem_cons.mpr ⟨fun isTop => ?_, inner⟩⟩
      rw [isTop] at awaits
      exact awaits

theorem linked_append : ∀ {above rest : List Frame}, Linked (above ++ rest) → Linked rest
  | [], _, linked => linked
  | _ :: _, _, linked => linked_append linked.tail

theorem disciplined_of_driven (keeps : host.Keeps) {m : Machine σ} (driven : Driven host m) :
    m.Disciplined host := by
  have orderly := orderly_of_reachable keeps driven.reachable
  refine ⟨linked_stack orderly.linked, driven.bounded keeps, ?_,
    fun above top caller rest whole => ?_, fun frame below stack pushed => ?_⟩
  · rw [← step_tooManyCalls keeps orderly]
    constructor
    · rintro ⟨fault, failed, isRange⟩
      cases fault with
      | tooManyCalls => exact failed
      | value | cannotRead | cannotSet | notDefined => cases isRange
    · exact fun failed => ⟨_, failed, rfl⟩
  · have linked := orderly.linked
    rw [whole] at linked
    exact (linked_append linked).1
  · rcases orderly.step_cases keeps stack with ⟨e, -, cleared⟩ | ⟨record, -, transition⟩
    · rw [depth, cleared] at pushed
      cases pushed
    · cases transition with
      | worked same tidy stack' =>
        rw [depth, depth, stack, stack'] at pushed
        simp at pushed
      | ended kind only stack' =>
        rw [depth, stack'] at pushed
        cases pushed
      | delivered whole receives stack' =>
        rw [depth, depth, stack, stack', whole] at pushed
        simp at pushed
      | @pushed _ kind scope body caller room same origin awaits tidy rooted stack' =>
        have level : m.depth = (caller :: below).length := by rw [depth, stack]; rfl
        refine ⟨_, caller, stack', same, origin, fun m' run => ?_⟩
        rw [level] at run ⊢
        have stands := run.stands keeps (orderly_step keeps orderly) ⟨[], _, stack', rfl⟩
        refine ⟨?_, fun value returned ended => ?_⟩
        · obtain ⟨upper, last, whole, -⟩ := stands
          exact ⟨upper ++ [last], by simp, by rw [whole]; simp⟩
        · obtain ⟨_, _, caller', whole, final, receives⟩ :=
            (run.orderly keeps (orderly_step keeps orderly)).received keeps stands returned ended
              (by simp)
          cases whole
          exact ⟨caller', final, receives⟩

/-- A call runs above the unit, and the next step begins one above the call. -/
theorem disciplined_of_driven_call :
    let m := Bare.after Bare.calling 15
    Bare.host.Keeps ∧ Driven Bare.host m ∧ m.depth = 2 ∧ (step Bare.host m).2.depth = 3 ∧
      m.Disciplined Bare.host :=
  have driven := driven_after Bare.parse_calling 15
  ⟨Bare.keeps, driven, by decide +kernel, by decide +kernel,
    disciplined_of_driven Bare.keeps driven⟩

end StepScript.Machine
