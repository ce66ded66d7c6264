import StepScript.Proofs.Machine.Chains
import StepScript.Proofs.Stack.Hooks

/-! Operators and conditions with hooks of the program.

Nodes that fold and do not assign do on the primitives that hooks gave what their
operator does on values. An error over a hook then says that what a hook gave is
itself an object with a hook of the program.
-/

set_option autoImplicit false

namespace StepScript

variable {σ : Type} {host : Host σ}

theorem Folds.settles {code : Code} {n : Nat} {fold : Fold} (folds : Folds code n fold) :
    Settles host code n (· = fold.decider) fold fun frame _ => frame.peek where
  moved rooted := by
    rintro _ rfl
    exact Nat.ne_of_gt (rooted.child_bounds folds.decider_mem).1
  below := folds.below
  steady _ _ := rfl
  quiet same here poised unready s := by
    subst same here
    exact quiet_unready poised s folds unready
  asks same here poised ready := by
    subst same here
    intro s move next
    rw [exec_fold poised s folds ready, Fold.exec]
    simp only [next]
  done same here poised ready := by
    subst same here
    intro s done move run
    rw [exec_fold poised s folds ready, Fold.exec] at run
    simp only [done, Fold.apply] at run
    split at run
    case h_1 move' s' outcome =>
      cases run
      rcases Fold.outcome_cases outcome with ⟨v, rfl⟩ | ⟨c, rfl⟩
      · rfl
      · rfl
    case h_2 => cases run

theorem EvalError.eq_of_ofValueError {e e' : ValueError}
    (same : EvalError.ofValueError e = .uncaught (.value e')) : e = e' := by
  cases e with
  | exit => cases same
  | _ => exact Fault.value.inj (EvalError.uncaught.inj same)

namespace Fold

/-- What a hook of the host gives for an operand stumbles. The left operand is converted first. -/
def Trips (host : Host σ) (fold : Fold) (used : Nat → Value) (s : Store σ) : Prop :=
  match fold with
  | binary _ left right => host.Trips .toNumber (used left) s ∨
    ∃ x s', (host.toNumber (used left)).run s = (.ok x, s') ∧
      host.Trips .toNumber (used right) s'
  | unary op operand => ∃ conversion, op.conversion? = some conversion ∧
    host.Trips conversion (used operand) s
  | logical _ left _ => host.Trips .toBoolean (used left) s
  | choose test _ _ => host.Trips .toBoolean (used test) s

/-- An operator that fails over a hook of the program, though none of its operands has one, trips
over what a hook gave. -/
theorem trips_of_error (gentle : host.Gentle) {fold : Fold} {value used : Nat → Value}
    {s s' : Store σ} {other : Conversion}
    (run : (fold.outcome host value used).run s = (.error (.scriptHook other), s'))
    (plain : ∀ conversion, fold.conversion? used = some conversion →
      ∀ operand ∈ fold.operands, s.scriptHook? (used operand) conversion.hook = none)
    (present : ∀ operand ∈ fold.operands, s.Has (used operand)) : fold.Trips host used s := by
  cases fold with
  | binary op left right =>
    rcases Act.error_of_bind run with failed | ⟨v, s₁, -, rest⟩
    · obtain ⟨numeric, failed⟩ := Host.binary_error failed
      have plain := plain .toNumber (if_pos numeric)
      rcases Host.toNumbers_error failed with first | ⟨x, s₁, first, second⟩
      · exact .inl ((Host.stumbles_of_toNumberWithin first).trips (plain left (by simp [operands])))
      · have stumbles := Host.stumbles_of_toNumberWithin second
        refine .inr ⟨x, s₁, first, stumbles.trips ?_⟩
        -- Converting the left operand has left the hooks of the right one alone.
        obtain ⟨id, same⟩ := stumbles.object
        have listed : right ∈ (binary op left right).operands := by simp [operands]
        obtain ⟨-, hooks⟩ := gentle.toNumberWithin (present right listed id same) first
        rw [← plain right listed, same, Store.scriptHook?, Store.scriptHook?, hooks]
    · cases rest
  | unary op operand =>
    rcases Act.error_of_bind run with failed | ⟨v, s₁, -, rest⟩
    · obtain ⟨conversion, wanted, stumbles⟩ := Host.stumbles_of_unary failed
      exact ⟨conversion, wanted,
        stumbles.trips (plain conversion wanted operand (by simp [operands]))⟩
    · cases rest
  | logical stopsOn left right =>
    rcases Act.error_of_bind run with failed | ⟨truth, s₁, -, rest⟩
    · exact (Host.stumbles_of_toBooleanWithin failed).trips
        (plain .toBoolean rfl left (by simp [operands]))
    · cases rest
  | choose test yes no =>
    rcases Act.error_of_bind run with failed | ⟨truth, s₁, -, rest⟩
    · exact (Host.stumbles_of_toBooleanWithin failed).trips
        (plain .toBoolean rfl test (by simp [operands]))
    · cases rest

/-- Once no hook is left to run, an operator fails over a hook only where it trips, if the operands
were the same when hooks were asked for. -/
theorem Hooked.trips (gentle : host.Gentle) {fold : Fold}
    {value : Frame → Store σ → Nat → Value} {first frame : Frame} {runs : List (HookRun σ)}
    (hooked : fold.Hooked value first frame runs) {s s' : Store σ} {given original : Nat → Value}
    (done : fold.next? given frame.converted s = none)
    (steady : ∀ run ∈ runs, value first run.store = given)
    (present : ∀ operand ∈ fold.operands, s.Has (given operand)) {other : Conversion}
    (run : (fold.outcome host original (HookRun.used runs given)).run s =
      (.error (.scriptHook other), s')) :
    fold.Trips host (HookRun.used runs given) s := by
  refine trips_of_error gentle run
    (fun conversion wanted operand member => hooked.plain done steady wanted member)
    fun operand member id same => ?_
  rcases hooked.used_cases given operand with primitive | ⟨-, alike⟩
  · exact absurd same (primitive id)
  · exact present operand member id (alike.symm.trans same)

end Fold

theorem Store.has_of_within {s : Store σ} {value : Value}
    (within : value.Within s.objects.size) : s.Has value := by
  rintro id rfl
  exact within

namespace Bare

theorem gentle : Bare.host.Gentle :=
  ⟨fun _ _ => Nat.le_refl _, fun _ _ _ _ _ => rfl⟩

theorem faithful : Bare.host.Faithful fun _ _ => False :=
  .of_leads fun _ _ _ _ _ => .pure trivial

theorem closed : store.Closed fun _ _ => False where
  objects object member := by
    rw [List.mem_singleton.mp (List.mem_toArray.mp member)]
    exact ⟨trivial, List.forall_mem_nil _⟩
  closures _ member := (List.not_mem_nil (List.mem_toArray.mp member)).elim
  host _ nothing := nothing.elim

theorem grounded_after {source : String} {code : Code} (parsed : parse source = .ok code)
    (count : Nat) : (after code count).Grounded Bare.host :=
  have global : (Value.object 0).Within store.objects.size := Nat.zero_lt_one
  ⟨_, _, faithful, closed, .steps (.feed (.start global 512) parsed) count⟩

end Bare

namespace Machine

/-- Where a machine is after a fold has finished its node or gone on with a child. -/
def Goes (frame : Frame) (below : List Frame) (s : Store σ)
    (result : Except EvalError Record × Machine σ) : Move → Prop
  | .finish value => result.1 = .ok (.normal value) ∧ result.2.store = s ∧
    ∃ frame', result.2.stack = frame' :: below ∧ frame.Same frame' ∧
      frame'.previous = frame.current ∧ frame.code.parent frame.current = some frame'.current ∧
      frame'.memo.find? frame.current = some value
  | .descend child => result.1 = .ok (.normal .undefined) ∧ result.2.store = s ∧
    ∃ frame', result.2.stack = frame' :: below ∧ frame.Same frame' ∧
      frame'.previous = frame.current ∧ frame'.current = child
  | _ => False

section Step

variable {m : Machine σ} {frame : Frame} {below : List Frame} (poised : frame.Poised)
  (stack : m.stack = frame :: below)

include poised stack in
theorem goes_of_finish {frame' : Frame} {s : Store σ} {value : Value} (inner : frame.current ≠ 0)
    (same : frame.Same frame') (here : frame'.current = frame.current)
    (exec : (Handler.node host frame.current).exec ⟨frame, m.store⟩ =
      (.ok (.finish value), ⟨frame', s⟩)) :
    Goes frame below s (step host m) (.finish value) := by
  obtain ⟨root, rooted, -⟩ := poised.rooted
  obtain ⟨parent, above, -, -⟩ := rooted.exists_parent poised.inside inner
  have raw : rawStep host m = _ := rawStep_of_exec stack exec
  have finished : finishNode frame' value =
      .ok { frame'.keep frame.current value with
        previous := frame.current, current := parent } := by
    rw [finishNode, same.code, here, above]
  rw [apply_finish finished] at raw
  rw [step_of_rawStep raw]
  exact ⟨rfl, rfl, _, rfl, ⟨same.kind, same.scope, same.code⟩, rfl, above,
    by simp [Frame.keep, NodeMap.find?_insert]⟩

variable {fold : Fold} (folds : Folds frame.code frame.current fold) (ready : frame.Ready fold)
  (done : fold.next? frame.peek frame.converted m.store = none) {s : Store σ}
include poised folds stack ready done

theorem step_of_outcome {move : Move}
    (run : (fold.outcome host frame.peek frame.used).run m.store = (.ok move, s)) :
    Goes frame below s (step host m) move := by
  obtain ⟨same, place⟩ := fold.taken_same frame
  have exec : (Handler.node host frame.current).exec ⟨frame, m.store⟩ =
      (.ok move, ⟨fold.taken frame, s⟩) := by
    rw [exec_fold poised m.store folds ready, Fold.exec]
    simp only [done, Fold.apply, run]
  rcases Fold.outcome_cases run with ⟨v, rfl⟩ | ⟨c, rfl⟩
  · obtain ⟨root, rooted, which⟩ := poised.rooted
    exact goes_of_finish poised stack (folds.below rooted which) same place exec
  · have raw : rawStep host m = _ := rawStep_of_exec stack exec
    rw [step_of_rawStep raw]
    exact ⟨rfl, rfl, _, rfl, ⟨same.kind, same.scope, same.code⟩, place, rfl⟩

theorem step_of_outcome_error {e : ValueError}
    (run : (fold.outcome host frame.peek frame.used).run m.store = (.error e, s)) :
    (step host m).1 = .error (.ofValueError e) := by
  have exec : (Handler.node host frame.current).exec ⟨frame, m.store⟩ =
      (.error (.ofValueError e), ⟨fold.taken frame, s⟩) := by
    rw [exec_fold poised m.store folds ready, Fold.exec]
    simp only [done, Fold.apply, run]
  exact step_of_exec_error stack exec

end Step

theorem asksNothing_of_scriptHook {m : Machine σ} {frame : Frame} {below : List Frame}
    {last : Nat → Prop} {fold : Fold} {value : Frame → Store σ → Nat → Value}
    (poised : frame.Poised)
    (stack : m.stack = frame :: below)
    (settles : Settles host frame.code frame.current last fold value) {conversion : Conversion}
    (failed : (step host m).1 = .error (.uncaught (.value (.scriptHook conversion)))) :
    m.AsksNothing host := by
  intro operand conversion hook asks
  rcases invokes_of_asks poised stack settles asks with refused | ⟨begins, -⟩
  · cases refused.symm.trans failed
  · cases begins.symm.trans failed

theorem ne_scriptHook_of_quiet {m : Machine σ} {frame : Frame} {below : List Frame}
    (stack : m.stack = frame :: below)
    (quiet : (Handler.node host frame.current).Quiet ⟨frame, m.store⟩) (conversion : Conversion) :
    (step host m).1 ≠ .error (.uncaught (.value (.scriptHook conversion))) := by
  obtain ⟨move, l, run, goes⟩ := quiet
  rw [step_fst, rawStep_of_exec stack run]
  cases move with
  | descend child => simp [apply]
  | finish value =>
    simp only [apply]
    cases finished : finishNode l.frame value with
    | ok done => simp
    | error e =>
      rw [finishNode] at finished
      split at finished
      · cases finished
      · cases finished
        simp
  | give | call | convert => cases goes

/-- Where no hook is left to ask for, a fold does what its operator does on what the hooks gave. -/
structure Answers (host : Host σ) (m : Machine σ) (fold : Fold) (frame : Frame)
    (below : List Frame) (runs : List (HookRun σ)) : Prop where
  value : m.AsksNothing host →
    match (fold.outcome host frame.peek (HookRun.used runs frame.peek)).run m.store with
    | (.ok move, s) => Goes frame below s (step host m) move
    | (.error e, _) => (step host m).1 = .error (.ofValueError e)
  trips : ∀ conversion, (step host m).1 = .error (.uncaught (.value (.scriptHook conversion))) →
    m.Grounded host ∨ (∀ operand ∈ fold.operands, m.store.Has (frame.peek operand)) →
      fold.Trips host (HookRun.used runs frame.peek) m.store

theorem Grounded.has_peek {m : Machine σ} (grounded : m.Grounded host) {frame : Frame}
    (member : frame ∈ m.stack) (operand : Nat) : m.store.Has (frame.peek operand) := by
  obtain ⟨held, base, n, sits⟩ := grounded.sits
  exact Store.has_of_within (sits.store.size ▸ (sits.frames frame member).peek operand)

section Answers

variable {m : Machine σ} {frame : Frame} {below : List Frame} {fold : Fold}
  (poised : frame.Poised) (stack : m.stack = frame :: below)
  (folds : Folds frame.code frame.current fold)
include poised stack folds

theorem answers_of_hooked (gentle : host.Gentle) (ready : frame.Ready fold)
    {runs : List (HookRun σ)}
    (hooked : fold.Hooked (fun frame _ => frame.peek) (frame.atFirst fold) frame runs) :
    m.Answers host fold frame below runs := by
  have used : frame.used = HookRun.used runs frame.peek := by
    funext operand
    rw [Frame.used, hooked.kept, HookRun.used]
  refine ⟨fun nothing => ?_, fun conversion failed grounds => ?_⟩
  · have done := next?_of_asks_nothing poised stack folds.settles ready nothing
    rw [← used]
    rcases run : (fold.outcome host frame.peek frame.used).run m.store with ⟨e | move, s⟩
    · exact step_of_outcome_error poised stack folds ready done run
    · exact step_of_outcome poised stack folds ready done run
  · have present (operand : Nat) (member : operand ∈ fold.operands) :
        m.store.Has (frame.peek operand) :=
      grounds.elim (·.has_peek (stack ▸ List.mem_cons_self) operand) (· operand member)
    have nothing := asksNothing_of_scriptHook poised stack folds.settles failed
    have done := next?_of_asks_nothing poised stack folds.settles ready nothing
    rcases run : (fold.outcome host frame.peek frame.used).run m.store with ⟨e | move, s⟩
    · have whole := (step_of_outcome_error poised stack folds ready done run).symm.trans failed
      cases EvalError.eq_of_ofValueError (Except.error.inj whole)
      rw [used] at run
      exact hooked.trips gentle done (fun _ _ => rfl) present run
    · have goes := step_of_outcome poised stack folds ready done run
      rcases Fold.outcome_cases run with ⟨v, rfl⟩ | ⟨c, rfl⟩
      · cases goes.1.symm.trans failed
      · cases goes.1.symm.trans failed

end Answers

/-- What a hook gives is converted at once, and only hooks of the host are asked for that. -/
def ConvertsResults (host : Host σ) (m : Machine σ) : Prop :=
  ∀ top below operand conversion, m.stack = top :: below →
    top.kind = .conversion operand conversion → ∀ value,
      ((Handler.node host top.current).run ⟨top, m.store⟩).1 = .ok (.give value) →
        ∀ other, (step host m).1 = .error (.uncaught (.value (.scriptHook other))) →
          host.Stumbles conversion value m.store

theorem Orderly.convertsResults {m : Machine σ} (orderly : m.Orderly) :
    m.ConvertsResults host := by
  intro top below operand conversion stack kind value gives other failed
  have tidy := orderly.tidy top (by rw [stack]; exact List.mem_cons_self)
  have left := Handler.tidies_node tidy.poised host tidy.outside ⟨top, m.store⟩
    ⟨rfl, tidy.kept, tidy.settled⟩
  rcases run : (Handler.node host top.current).run ⟨top, m.store⟩ with ⟨e | move, l⟩
  · rw [run] at gives
    cases gives
  rw [run] at gives left
  cases gives
  obtain ⟨M, C, held, node, found, sequence⟩ := left
  have exec : (Handler.node host top.current).exec ⟨top, m.store⟩ = (.ok (.give value), l) := run
  have still := Handler.store_of_give host ⟨top, m.store⟩ rfl found sequence
  rw [exec] at still
  change l.store = m.store at still
  rw [step_fst, rawStep_of_exec stack exec] at failed
  simp only [apply, held.kind, kind, still] at failed
  cases below with
  | nil => cases failed
  | cons caller rest =>
    simp only [deliver] at failed
    rcases converted : (host.convert conversion value).run m.store with ⟨e | result, s⟩
    · simp only [converted] at failed
      cases EvalError.eq_of_ofValueError (Except.error.inj failed)
      exact Host.stumbles_of_convert converted
    · simp only [converted] at failed
      cases failed

/-- How hooks of the program run in a machine, for all nodes that fold except assignments. -/
structure RunsHooks (host : Host σ) (m : Machine σ) : Prop where
  kinds : ∀ frame ∈ m.stack, ∀ node, frame.code.get? frame.current = some node →
    node.folds = true → node.isAssignment = false →
      ∃ fold, Folds frame.code frame.current fold
  /-- A hook is asked for when the operands are finished. -/
  asked : ∀ frame below fold, m.stack = frame :: below → Folds frame.code frame.current fold →
    ∀ operand conversion hook, m.Asks host operand conversion hook → frame.Ready fold
  /-- Since the operands were found finished, hooks have run, once for an operand at most; and the
  node does what the operator does on what they gave. -/
  folded : ∀ frame below fold, m.stack = frame :: below → Folds frame.code frame.current fold →
    frame.Ready fold → ∃ m₀ runs, Driven host m₀ ∧ m₀.stack = frame.atFirst fold :: below ∧
      Settling host m₀ runs m ∧ fold.Protocol host (fun frame _ => frame.peek) m frame below runs ∧
      m.Answers host fold frame below runs
  unready : ∀ frame below fold, m.stack = frame :: below → Folds frame.code frame.current fold →
    ¬ frame.Ready fold → ∀ conversion,
      (step host m).1 ≠ .error (.uncaught (.value (.scriptHook conversion)))
  results : m.ConvertsResults host

/-- Hooks of the program follow their protocol in every fold that is no assignment, whatever they
do. -/
theorem runsHooks_of_driven (keeps : host.Keeps) (gentle : host.Gentle) {m : Machine σ}
    (driven : Driven host m) : m.RunsHooks host := by
  have orderly := orderly_of_reachable keeps driven.reachable
  have tidy {frame : Frame} {below : List Frame} (stack : m.stack = frame :: below) : frame.Tidy :=
    orderly.tidy frame (by rw [stack]; exact List.mem_cons_self)
  refine ⟨fun frame member node found folds plain => ?_, fun frame below fold stack folds operand
    conversion hook asks => ?_, fun frame below fold stack folds ready => ?_,
    fun frame below fold stack folds unready => ne_scriptHook_of_quiet stack
      (quiet_unready (tidy stack).poised m.store folds unready),
    orderly.convertsResults⟩
  · have poised := (orderly.tidy frame member).poised
    obtain ⟨root, rooted, -⟩ := poised.rooted
    obtain ⟨node', parts, site⟩ := rooted.site poised.inside
    cases site.get?.symm.trans found
    exact site.exists_folds folds plain
  · exact (ready_of_asks (tidy stack).poised stack folds.settles asks).1
  · obtain ⟨m₀, runs, driven₀, began, settling, protocol⟩ :=
      driven.protocol keeps stack folds.settles ready
    exact ⟨m₀, runs, driven₀, began, settling, protocol,
      answers_of_hooked (tidy stack).poised stack folds gentle ready protocol.toHooked⟩

/-- Both hooks of a subtraction have run, and the next step subtracts. -/
theorem runsHooks_of_driven_subtraction :
    let m := Bare.after Bare.subtraction 26
    Bare.host.Keeps ∧ Bare.host.Gentle ∧ Driven Bare.host m ∧ m.Grounded Bare.host ∧
      m.stack.map (fun frame => (frame.current, (frame.converted.find? 3).isSome,
        (frame.converted.find? 11).isSome)) = [(2, true, true)] ∧
      m.RunsHooks Bare.host := by
  intro m
  have driven : Driven Bare.host m := driven_after Bare.parse_subtraction 26
  have grounded : m.Grounded Bare.host := Bare.grounded_after Bare.parse_subtraction 26
  refine ⟨Bare.keeps, Bare.gentle, driven, grounded, ?_,
    runsHooks_of_driven Bare.keeps Bare.gentle driven⟩
  decide +kernel

end Machine

end StepScript
