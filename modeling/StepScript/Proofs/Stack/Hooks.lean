import StepScript.Proofs.Stack.Folds
import StepScript.Proofs.Stack.Nesting

/-! Folds run each hook once.

Between the step that finds the operands of a fold finished and the one that folds
them, hooks run on top of the frame, one after the other, and whatever they do, the
frame itself only gets what they give. So a machine that stands at a fold has a
story: where the operands were found finished, and which hooks have run since.
Assignments are among the nodes of this module. What their operands are can change
with the store, so it is asked anew each time that the node is met.
-/

set_option autoImplicit false

namespace StepScript

variable {σ : Type} {host : Host σ}

/-- A hook that was run for an operand: the store in which it was asked for, what it gave, and the
primitive that was made of that. -/
structure HookRun (σ : Type) where
  operand : Nat
  conversion : Conversion
  hook : Closure
  store : Store σ
  result : Value
  coerced : Value

namespace HookRun

def coerced? (runs : List (HookRun σ)) (operand : Nat) : Option Value :=
  (runs.find? (·.operand == operand)).map (·.coerced)

def used (runs : List (HookRun σ)) (value : Nat → Value) (operand : Nat) : Value :=
  (coerced? runs operand).getD (value operand)

variable {runs : List (HookRun σ)} {operand : Nat}

theorem coerced?_eq_none : coerced? runs operand = none ↔ operand ∉ runs.map (·.operand) := by
  simp [coerced?, List.find?_eq_none]

theorem coerced?_concat (run : HookRun σ) (fresh : run.operand ∉ runs.map (·.operand))
    (operand : Nat) : coerced? (runs ++ [run]) operand =
      if operand = run.operand then some run.coerced else coerced? runs operand := by
  unfold coerced?
  rw [List.find?_append]
  split
  · rename_i same
    subst same
    rw [Option.map_eq_none_iff.mp (coerced?_eq_none.mpr fresh)]
    simp
  · rename_i other
    have rest : [run].find? (·.operand == operand) = none := by simp [Ne.symm other]
    rw [rest, Option.or_none]

end HookRun

def Frame.atFirst (frame : Frame) (fold : Fold) : Frame :=
  { frame with previous := fold.decider, converted := .empty }

def Frame.asMet (frame : Frame) (p : Nat) : Frame :=
  { frame with previous := p, converted := .empty }

/-- The node of the frame is met from one of the nodes `last`, or again. -/
def Frame.MetFrom (frame : Frame) (last : Nat → Prop) : Prop :=
  last frame.previous ∨ frame.previous = frame.current

theorem Frame.Tidy.converted_eq_empty {frame : Frame} (tidy : frame.Tidy)
    (moved : frame.previous ≠ frame.current) : frame.converted = .empty := by
  apply NodeMap.ext
  intro k
  cases kept : frame.converted.find? k with
  | none => rfl
  | some value => exact absurd (tidy.settled k (by rw [kept]; rfl)).1 moved

/-- Once it is met from one of the nodes `last`, the node `n` runs hooks for its operands as `fold`
says, and then it does the rest. `value` is what the operands are, in a frame and a store. -/
structure Settles (host : Host σ) (code : Code) (n : Nat) (last : Nat → Prop) (fold : Fold)
    (value : Frame → Store σ → Nat → Value) : Prop where
  moved {root : Statement} (rooted : code.Rooted root) {p : Nat} (met : last p) : p ≠ n
  below {root : Statement} (rooted : code.Rooted root) (which : root = .unit ∨ root = .block) :
    n ≠ 0
  /-- Neither the cursors nor what hooks have made changes what the operands are. -/
  steady (frame : Frame) (p : Nat) : value (frame.asMet p) = value frame
  quiet {frame : Frame} (same : frame.code = code) (here : frame.current = n)
    (poised : frame.Poised) (unready : ¬ frame.MetFrom last) (s : Store σ) :
    (Handler.node host n).Quiet ⟨frame, s⟩
  asks {frame : Frame} (same : frame.code = code) (here : frame.current = n)
    (poised : frame.Poised) (ready : frame.MetFrom last) {s : Store σ} {move : Move}
    (next : fold.next? (value frame s) frame.converted s = some move) :
    (Handler.node host n).exec ⟨frame, s⟩ = (.ok move, ⟨frame, s⟩)
  done {frame : Frame} (same : frame.code = code) (here : frame.current = n)
    (poised : frame.Poised) (ready : frame.MetFrom last) {s : Store σ}
    (done : fold.next? (value frame s) frame.converted s = none) {move : Move}
    (run : ((Handler.node host n).exec ⟨frame, s⟩).1 = .ok move) : move.goesOn = true

/-- Hooks have run for some operands of a fold, once for each, and the primitives that were made of
their results are kept. -/
structure Fold.Hooked (fold : Fold) (value : Frame → Store σ → Nat → Value) (first frame : Frame)
    (runs : List (HookRun σ)) : Prop where
  same : frame = { first with previous := frame.previous, converted := frame.converted }
  once : (runs.map (·.operand)).Nodup
  kept : ∀ operand, frame.converted.find? operand = HookRun.coerced? runs operand
  /-- Hooks have run for operands that the operator converts, and only for those. -/
  wanted : ∀ run ∈ runs,
    fold.Wants (value first run.store) run.store run.operand run.conversion run.hook
  primitive : ∀ run ∈ runs, ∀ id, run.coerced ≠ .object id

namespace Machine

def Asks (host : Host σ) (m : Machine σ) (operand : Nat) (conversion : Conversion)
    (hook : Closure) : Prop :=
  ∃ frame below, m.stack = frame :: below ∧
    ((Handler.node host frame.current).run ⟨frame, m.store⟩).1 =
      .ok (.convert operand conversion hook)

def AsksNothing (host : Host σ) (m : Machine σ) : Prop :=
  ∀ operand conversion hook, ¬ m.Asks host operand conversion hook

def Invokes (host : Host σ) (m : Machine σ) (frame : Frame) (below : List Frame) (operand : Nat)
    (conversion : Conversion) (hook : Closure) : Prop :=
  (step host m).1 = .error (.uncaught .tooManyCalls) ∨
    (step host m).1 = .ok (.normal .undefined) ∧ (step host m).2.stack =
      Frame.start (.conversion operand conversion) (.object m.store.objects.size) hook.body ::
        { frame with previous := frame.current } :: below

/-- What becomes of a machine while hooks run for the operands of its running frame: one is asked,
runs above that frame with all that it calls, and what it gives is converted. -/
inductive Settling (host : Host σ) (m : Machine σ) : List (HookRun σ) → Machine σ → Prop where
  | start : Settling host m [] m
  | rest {runs : List (HookRun σ)} {m' m'' : Machine σ} (before : Settling host m runs m')
    (turn : Turn host m' m'') (still : m''.stack = m'.stack) : Settling host m runs m''
  | hook {runs : List (HookRun σ)} {m₁ m₂ : Machine σ} {operand : Nat} {conversion : Conversion}
    {hook : Closure} {result coerced : Value} (before : Settling host m runs m₁)
    (asks : m₁.Asks host operand conversion hook)
    (begins : (step host m₁).2.depth = m₁.depth + 1)
    (inside : Above host m₁.depth (step host m₁).2 m₂)
    (returns : (step host m₂).1 = .ok (.returned result))
    (ends : (step host m₂).2.depth = m₁.depth)
    (coerces : (host.convert conversion result).run m₂.store =
      (.ok coerced, (step host m₂).2.store)) :
    Settling host m (runs ++ [⟨operand, conversion, hook, m₁.store, result, coerced⟩])
      (step host m₂).2

end Machine

/-- The hooks `runs` have run for a fold of the machine. The next one is for an operand that has
had none; and if there is no next one, no operand is left that still wants a hook. -/
structure Fold.Protocol (host : Host σ) (fold : Fold) (value : Frame → Store σ → Nat → Value)
    (m : Machine σ) (frame : Frame) (below : List Frame) (runs : List (HookRun σ)) : Prop
    extends fold.Hooked value (frame.atFirst fold) frame runs where
  asked : ∀ operand conversion hook, m.Asks host operand conversion hook →
    operand ∉ runs.map (·.operand) ∧
    fold.Wants (value frame m.store) m.store operand conversion hook ∧
    m.Invokes host frame below operand conversion hook
  complete : m.AsksNothing host → ∀ operand conversion hook,
    fold.Wants (value frame m.store) m.store operand conversion hook →
      operand ∈ runs.map (·.operand)

namespace Machine

/-! ## One step at a fold -/

section Exec

variable {m : Machine σ} {frame : Frame} {below : List Frame} {l : Local σ}
  (stack : m.stack = frame :: below)
include stack

theorem rawStep_of_exec {move : Move}
    (exec : (Handler.node host frame.current).exec ⟨frame, m.store⟩ = (.ok move, l)) :
    rawStep host m = apply host { m with store := l.store, stack := below } l.frame move := by
  rw [Handler.exec] at exec
  simp only [rawStep, stack, stepFrame, exec]

theorem step_of_exec_error {e : EvalError}
    (exec : (Handler.node host frame.current).exec ⟨frame, m.store⟩ = (.error e, l)) :
    (step host m).1 = .error e := by
  rw [Handler.exec] at exec
  rw [step_fst]
  simp only [rawStep, stack, stepFrame, exec]

end Exec

section Step

variable {m : Machine σ} {frame : Frame} {below : List Frame} {last : Nat → Prop} {fold : Fold}
  {value : Frame → Store σ → Nat → Value} (poised : frame.Poised)
  (stack : m.stack = frame :: below)
  (settles : Settles host frame.code frame.current last fold value)
include poised settles

/-- Only a fold with finished operands starts anything, and that is the next hook. -/
theorem ready_of_starts {move : Move} (starts : move.starts = true)
    (run : ((Handler.node host frame.current).run ⟨frame, m.store⟩).1 = .ok move) :
    frame.MetFrom last ∧
      fold.next? (value frame m.store) frame.converted m.store = some move := by
  have other (goes : move.goesOn = true) : False := by
    cases move with
    | descend | finish | give => cases starts
    | call | convert => cases goes
  by_cases ready : frame.MetFrom last
  · refine ⟨ready, ?_⟩
    cases next : fold.next? (value frame m.store) frame.converted m.store with
    | some move' =>
      have asked := settles.asks rfl rfl poised ready next
      rw [Handler.exec] at asked
      rw [asked] at run
      rw [Except.ok.inj run]
    | none => exact (other (settles.done rfl rfl poised ready next run)).elim
  · obtain ⟨move', l, ran, quiet⟩ := settles.quiet rfl rfl poised ready m.store
    rw [Handler.exec] at ran
    rw [ran] at run
    cases run
    exact (other quiet).elim

include stack

theorem ready_of_asks {operand : Nat} {conversion : Conversion} {hook : Closure}
    (asks : m.Asks host operand conversion hook) :
    frame.MetFrom last ∧ fold.next? (value frame m.store) frame.converted m.store =
      some (.convert operand conversion hook) := by
  obtain ⟨_, _, stack', asked⟩ := asks
  cases stack.symm.trans stack'
  exact ready_of_starts poised settles rfl asked

theorem invokes_of_asks {operand : Nat} {conversion : Conversion} {hook : Closure}
    (asks : m.Asks host operand conversion hook) :
    m.Invokes host frame below operand conversion hook := by
  obtain ⟨ready, next⟩ := ready_of_asks poised stack settles asks
  have raw : rawStep host m = _ :=
    rawStep_of_exec stack (settles.asks rfl rfl poised ready next)
  rcases Nat.lt_or_ge (below.length + 1) m.depthLimit with room | full
  · rw [apply_convert (m := { m with store := m.store, stack := below }) operand conversion
      room] at raw
    rw [Invokes, step_of_rawStep raw]
    exact .inr ⟨rfl, rfl⟩
  · rw [apply_refused (m := { m with store := m.store, stack := below })
      (.convert operand conversion hook) rfl full] at raw
    rw [Invokes, step_fst, raw]
    exact .inl rfl

theorem next?_of_asks_nothing (ready : frame.MetFrom last)
    (nothing : m.AsksNothing host) :
    fold.next? (value frame m.store) frame.converted m.store = none := by
  by_contra more
  obtain ⟨move, next⟩ := Option.ne_none_iff_exists'.mp more
  obtain ⟨operand, conversion, hook, rfl, -⟩ := Fold.eq_some_of_next? next
  refine nothing operand conversion hook ⟨frame, below, stack, ?_⟩
  exact congrArg Prod.fst (settles.asks rfl rfl poised ready next)

end Step

theorem eq_asMet {frame : Frame} {last : Nat → Prop} {fold : Fold}
    {value : Frame → Store σ → Nat → Value} (tidy : frame.Tidy)
    (settles : Settles host frame.code frame.current last fold value)
    (met : last frame.previous) : frame = frame.asMet frame.previous := by
  obtain ⟨root, rooted, -⟩ := tidy.poised.rooted
  rw [Frame.asMet, ← tidy.converted_eq_empty (settles.moved rooted met)]

/-! ## What hooks leave of the frame -/

section Asked

variable (keeps : host.Keeps) {m m' : Machine σ} {frame : Frame} {below : List Frame}
  {last : Nat → Prop} {fold : Fold} {value : Frame → Store σ → Nat → Value} {operand : Nat}
  {conversion : Conversion} {hook : Closure} (orderly : m.Orderly)
  (stack : m.stack = frame :: below)
  (settles : Settles host frame.code frame.current last fold value)
  (asks : m.Asks host operand conversion hook) (begins : (step host m).2.depth = m.depth + 1)
  (inside : Above host m.depth (step host m).2 m')
include keeps orderly stack settles asks begins inside

theorem above_of_asks : m'.Orderly ∧ ∃ upper last,
    m'.stack = upper ++ last :: { frame with previous := frame.current } :: below ∧
      last.kind = .conversion operand conversion := by
  have poised := (orderly.tidy frame (by rw [stack]; exact List.mem_cons_self)).poised
  have level : m.depth = ({ frame with previous := frame.current } :: below).length := by
    rw [depth, stack]
    rfl
  have pushed : (step host m).2.stack =
      Frame.start (.conversion operand conversion) (.object m.store.objects.size) hook.body ::
        { frame with previous := frame.current } :: below := by
    rcases invokes_of_asks poised stack settles asks with refused | ⟨-, pushed⟩
    · rw [depth, stack_of_error refused] at begins
      cases begins
    · exact pushed
  have orderly' : (step host m).2.Orderly := orderly_step keeps orderly
  rw [level] at inside
  exact ⟨inside.orderly keeps orderly', inside.stands keeps orderly' ⟨[], _, pushed, rfl⟩⟩

theorem returns_of_asks {result : Value} (returns : (step host m').1 = .ok (.returned result))
    (ends : (step host m').2.depth = m.depth) :
    ∃ coerced, (host.convert conversion result).run m'.store =
        (.ok coerced, (step host m').2.store) ∧
      (step host m').2.stack = { frame with
        previous := frame.current, converted := frame.converted.insert operand coerced } ::
          below := by
  obtain ⟨orderly', stands⟩ := above_of_asks keeps orderly stack settles asks begins inside
  have level : m.depth = ({ frame with previous := frame.current } :: below).length := by
    rw [depth, stack]
    rfl
  obtain ⟨_, _, caller, whole, final, receives⟩ :=
    orderly'.received keeps stands returns (ends.trans level) (by simp)
  cases whole
  obtain ⟨coerced, run, rfl⟩ := receives
  exact ⟨coerced, run, final⟩

end Asked

section Story

variable (keeps : host.Keeps) {last : Nat → Prop} {fold : Fold}
  {value : Frame → Store σ → Nat → Value} {frame : Frame} {below upper : List Frame}
  {m m' : Machine σ}

include keeps in
/-- While hooks run, the frame stays what it was, apart from what they make of operands. -/
theorem Settling.hooked {first : Frame} {runs : List (HookRun σ)} (orderly : m.Orderly)
    (stack : m.stack = first :: below)
    (settles : Settles host first.code first.current last fold value)
    (ready : first.MetFrom last) (fresh : first.converted = .empty)
    (settling : Settling host m runs m') :
    m'.Orderly ∧ ∃ frame, m'.stack = frame :: below ∧ frame.MetFrom last ∧
      fold.Hooked value first frame runs := by
  -- By induction on what happens meanwhile: only the end of a hook changes the frame.
  induction settling with
  | start =>
    exact ⟨orderly, first, stack, ready, rfl, .nil, fun operand => by rw [fresh]; rfl, by simp,
      by simp⟩
  | rest before turn still ih =>
    obtain ⟨orderly', frame, stack', facts⟩ := ih
    exact ⟨turn.orderly keeps orderly', frame, still.trans stack', facts⟩
  | @hook runs m₁ m₂ operand conversion hook result coerced before asks begins inside returns ends
      coerces ih =>
    obtain ⟨orderly₁, frame, stack₁, ready₁, same, once, kept, wanted, primitive⟩ := ih
    have settles₁ : Settles host frame.code frame.current last fold value := by
      rw [same]
      exact settles
    have poised₁ := (orderly₁.tidy frame (by rw [stack₁]; exact List.mem_cons_self)).poised
    obtain ⟨-, next⟩ := ready_of_asks poised₁ stack₁ settles₁ asks
    obtain ⟨orderly₂, -⟩ := above_of_asks keeps orderly₁ stack₁ settles₁ asks begins inside
    obtain ⟨coerced', run, final⟩ :=
      returns_of_asks keeps orderly₁ stack₁ settles₁ asks begins inside returns ends
    cases congrArg Prod.fst (coerces.symm.trans run)
    obtain ⟨_, _, _, move, unsettled, wants⟩ := Fold.eq_some_of_next? next
    cases move
    have alike : value frame = value first := by
      rw [← settles.steady frame 0, ← settles.steady first 0]
      congr 1
      rw [same]
      rfl
    rw [alike] at wants
    -- A hook is asked only for an operand without a converted value, so never twice for one.
    have new : operand ∉ runs.map (·.operand) :=
      HookRun.coerced?_eq_none.mp ((kept operand).symm.trans unsettled)
    refine ⟨orderly_step keeps orderly₂, _, final, .inr rfl, ?_, ?_, ?_,
      List.forall_mem_append.mpr ⟨wanted, by simpa using wants⟩,
      List.forall_mem_append.mpr ⟨primitive, by simpa using Host.primitive_of_convert coerces⟩⟩
    · rw [same]
    · rw [List.map_append]
      refine List.nodup_append.mpr
        ⟨once, List.nodup_singleton _, fun other earlier last isLast => ?_⟩
      rw [List.mem_singleton.mp isLast]
      rintro rfl
      exact new earlier
    · intro other
      rw [HookRun.coerced?_concat _ new, NodeMap.find?_insert, kept]

/-! ## The story of a fold -/

/-- How a machine came to a fold that is met again: its operands were found finished at `m₀`, and
hooks have run since. The last of them may still be running, on the frames `upper`. -/
inductive Story (host : Host σ) (last : Nat → Prop) (frame : Frame) (below : List Frame) :
    List Frame → Machine σ → Prop where
  | settled {m₀ m : Machine σ} {p : Nat} {runs : List (HookRun σ)} (driven : Driven host m₀)
    (met : last p) (began : m₀.stack = frame.asMet p :: below)
    (settling : Settling host m₀ runs m) : Story host last frame below [] m
  | inside {m₀ m₁ m : Machine σ} {p : Nat} {runs : List (HookRun σ)} {upper : List Frame}
    {operand : Nat} {conversion : Conversion} {hook : Closure} (driven : Driven host m₀)
    (met : last p) (began : m₀.stack = frame.asMet p :: below)
    (settling : Settling host m₀ runs m₁) (asks : m₁.Asks host operand conversion hook)
    (begins : (step host m₁).2.depth = m₁.depth + 1)
    (above : Above host m₁.depth (step host m₁).2 m) (nonempty : upper ≠ []) :
    Story host last frame below upper m

variable (settles : Settles host frame.code frame.current last fold value)
include keeps settles

theorem Settling.hooked_of_began {m₀ : Machine σ} {p : Nat} {runs : List (HookRun σ)}
    (driven : Driven host m₀) (met : last p) (began : m₀.stack = frame.asMet p :: below)
    (settling : Settling host m₀ runs m) :
    m.Orderly ∧ ∃ frame', m.stack = frame' :: below ∧ frame'.MetFrom last ∧
      fold.Hooked value (frame.asMet p) frame' runs :=
  settling.hooked keeps (orderly_of_reachable keeps driven.reachable) began settles (.inl met) rfl

omit settles in
/-- A fold that starts a hook waits for it below. -/
theorem Story.asked {frame' top : Frame} {record : Record} {move : Move} (driven : Driven host m)
    (stack : m.stack = frame :: below)
    (settles : Settles host frame.code frame.current last fold value)
    (story : frame.previous = frame.current → Story host last frame below [] m)
    (run : ((Handler.node host frame.current).run ⟨frame, m.store⟩).1 = .ok move)
    (starts : move.starts = true) (stepped : (step host m).1 = .ok record)
    (pushed : (step host m).2.stack = top :: frame' :: below) :
    Story host last frame' below [top] (step host m).2 := by
  have tidy := (orderly_of_reachable keeps driven.reachable).tidy frame
    (by rw [stack]; exact List.mem_cons_self)
  obtain ⟨ready, next⟩ := ready_of_starts tidy.poised settles starts run
  obtain ⟨operand, conversion, hook, rfl, -⟩ := Fold.eq_some_of_next? next
  have asks : m.Asks host operand conversion hook := ⟨frame, below, stack, run⟩
  have begins : (step host m).2.depth = m.depth + 1 := by
    rw [depth, depth, pushed, stack]
    rfl
  rcases invokes_of_asks tidy.poised stack settles asks with refused | ⟨-, final⟩
  · rw [refused] at stepped
    cases stepped
  cases pushed.symm.trans final
  rcases ready with met | same
  · -- The operands are found finished just now, so this is where the story begins.
    have began : m.stack = frame.asMet frame.previous :: below := by
      rw [stack, ← eq_asMet tidy settles met]
    exact .inside driven met began .start asks begins .refl (by simp)
  · cases story same with
    | settled driven₀ met began settling =>
      exact .inside driven₀ met began settling asks begins .refl (by simp)
    | inside _ _ _ _ _ _ _ nonempty => exact absurd rfl nonempty

/-- While a hook runs, the story goes on above the frame. -/
theorem Story.turn {upper₀ : List Frame} (story : Story host last frame below upper₀ m)
    (turn : Turn host m m') (stack : m'.stack = upper ++ frame :: below) (was : upper₀ ≠ [])
    (stays : upper ≠ []) : Story host last frame below upper m' := by
  cases story with
  | settled => exact absurd rfl was
  | inside driven met began settling asks begins above nonempty =>
    obtain ⟨-, frame₁, stack₁, -⟩ := settling.hooked_of_began keeps settles driven met began
    refine .inside driven met began settling asks begins (.turn above turn ?_) stays
    have := List.length_pos_iff.mpr stays
    rw [depth, depth, stack, stack₁, List.length_append, List.length_cons, List.length_cons]
    omega

/-- A hook that gives its value ends on the frame that asked it. -/
theorem Story.returned {top : Frame} {result : Value} {caller' : Frame}
    (story : Story host last frame below [top] m) (stack : m.stack = top :: frame :: below)
    (returns : (step host m).1 = .ok (.returned result))
    (ends : (step host m).2.stack = caller' :: below) :
    Story host last caller' below [] (step host m).2 := by
  cases story with
  | @inside _ m₁ _ _ _ _ _ _ _ driven met began settling asks begins above nonempty =>
    obtain ⟨orderly₁, frame₁, stack₁, -, hooked⟩ :=
      settling.hooked_of_began keeps settles driven met began
    have settles₁ : Settles host frame₁.code frame₁.current last fold value := by
      rw [hooked.same]
      exact settles
    obtain ⟨-, upper', last, whole, -⟩ :=
      above_of_asks keeps orderly₁ stack₁ settles₁ asks begins above
    have level : (step host m).2.depth = m₁.depth := by
      rw [depth, depth, ends, stack₁]
      rfl
    obtain ⟨coerced, coerces, final⟩ :=
      returns_of_asks keeps orderly₁ stack₁ settles₁ asks begins above returns level
    rw [stack] at whole
    -- Nothing but the hook itself runs above the frame.
    have single : upper' = [] := by
      have count := congrArg List.length whole
      simp only [List.length_cons, List.length_append] at count
      exact List.eq_nil_of_length_eq_zero (by omega)
    subst single
    cases whole
    cases ends.symm.trans final
    exact .settled driven met began (.hook settling asks begins above returns level coerces)

end Story

variable {m : Machine σ}

theorem running?_cases {frame : Frame} {below : List Frame}
    (running : m.running? = some (frame, below)) :
    m.stack = frame :: below ∨ below = [] ∧ frame.current = 0 := by
  unfold running? at running
  split at running
  case h_1 whole =>
    cases running
    exact .inl whole
  case h_2 =>
    cases running
    exact .inr ⟨rfl, rfl⟩
  case h_3 => cases running

def Told (host : Host σ) (m : Machine σ) : Prop :=
  ∀ (upper : List Frame) (frame : Frame) (below : List Frame) (last : Nat → Prop) (fold : Fold)
    (value : Frame → Store σ → Nat → Value), m.stack = upper ++ frame :: below →
      Settles host frame.code frame.current last fold value → frame.previous = frame.current →
        Story host last frame below upper m

section Step

variable (keeps : host.Keeps) (driven : Driven host m) (told : m.Told host) {old : Frame}
  {rest : List Frame} (running : m.running? = some (old, rest)) {record : Record}
  (stepped : (step host m).1 = .ok record)
include keeps driven told running stepped

theorem Told.step_running : (step host m).2.Told host := by
  intro upper frame below last fold value stack settles waits
  have orderly := orderly_of_reachable keeps driven.reachable
  obtain ⟨tidy, -, linked⟩ := orderly.running running
  have transition := transition_step keeps orderly.sound.bodies tidy linked running stepped
  have place (occupied : rest ≠ []) : m.stack = old :: rest :=
    (running?_cases running).resolve_right fun only => occupied only.1
  -- A frame that waits below others goes on waiting below others.
  have goes {between : List Frame} (split : rest = between ++ frame :: below) (stays : upper ≠ []) :
      Story host last frame below upper (step host m).2 := by
    have whole : m.stack = (old :: between) ++ frame :: below := by
      rw [place (by simp [split]), split]
      rfl
    exact (told _ _ _ _ _ _ whole settles waits).turn keeps settles (.step m) stack (by simp) stays
  cases transition with
  | worked same tidy' stack' limit moved =>
    rw [stack'] at stack
    rcases upper with _ | ⟨top, between⟩
    · cases stack
      exact absurd waits moved
    · exact goes (List.cons.inj stack).2 (by simp)
  | @pushed _ kind scope body caller room same origin awaits tidy' rooted stack' limit starts =>
    rw [stack'] at stack
    rcases upper with _ | ⟨top, _ | ⟨second, between⟩⟩
    · -- A frame that has just started is at its root, which does not fold.
      cases stack
      exact absurd rfl (settles.below rooted (.inr rfl))
    · cases stack
      have here : frame.current = old.current := waits.symm.trans origin
      have settles' : Settles host old.code old.current last fold value := by
        rw [← same.code, ← here]
        exact settles
      have stack : m.stack = old :: rest := by
        refine (running?_cases running).resolve_right fun only => ?_
        obtain ⟨root, rooted, which⟩ := tidy.poised.rooted
        exact settles'.below rooted which only.2
      obtain ⟨move, run, isStart⟩ := starts
      exact .asked keeps driven stack settles' (told [] _ _ _ _ _ stack settles') run isStart stepped
        stack'
    · exact goes (List.cons.inj (List.cons.inj stack).2).2 (by simp)
  | ended kind only stack' =>
    rw [stack'] at stack
    simp at stack
  | @delivered _ result caller caller' below' whole receives stack' =>
    rw [stack'] at stack
    rcases upper with _ | ⟨top, between⟩
    · cases stack
      have stack : m.stack = old :: caller :: below := by rw [place (by simp [whole]), whole]
      rw [whole] at linked
      have awaits := linked.1
      cases isKind : old.kind with
      | topLevel =>
        rw [isKind] at awaits
        exact awaits.elim
      | function =>
        -- Below a call the cursors stand at the call and at its parent.
        rw [isKind] at awaits receives
        obtain ⟨-, rfl⟩ := receives
        obtain ⟨root, rooted, -⟩ := (orderly.tidy caller (by simp [stack])).poised.rooted
        have less := rooted.lt_of_parent (caller.code.inside_of_get? awaits.1) awaits.2
        exact absurd waits (Nat.ne_of_gt less)
      | conversion operand conversion =>
        rw [isKind] at receives
        obtain ⟨converted, run, rfl⟩ := receives
        have settles : Settles host caller.code caller.current last fold value := settles
        exact (told [old] caller below last fold value stack settles waits).returned keeps settles
          stack stepped stack'
    · have split : rest = (caller :: between) ++ frame :: below := by
        rw [whole, (List.cons.inj stack).2]
        rfl
      exact goes split (by simp)

end Step

theorem Driven.told (keeps : host.Keeps) (driven : Driven host m) : m.Told host := by
  -- By induction on the turns; only steps of the machine move the frames.
  induction driven with
  | start => intro upper frame below last fold value stack; simp [Machine.start] at stack
  | @turn m m' driven turn told =>
    -- What happens beside leaves the stack as it is.
    have beside (still : m'.stack = m.stack) : m'.Told host := by
      intro upper frame below last fold value stack settles waits
      have story := told _ _ _ _ _ _ (still.symm.trans stack) settles waits
      rcases upper with _ | ⟨top, between⟩
      · cases story with
        | settled driven met began settling =>
          exact .settled driven met began (.rest settling turn still)
        | inside _ _ _ _ _ _ _ nonempty => exact absurd rfl nonempty
      · exact story.turn keeps settles turn stack (by simp) (by simp)
    cases turn with
    | feed => exact beside rfl
    | change => exact beside rfl
    | step =>
      cases running : m.running? with
      | none => exact beside (congrArg (·.stack) (step_of_idle running))
      | some pair =>
        rcases stepped : (step host m).1 with e | record
        · intro upper frame below last fold value stack
          rw [stack_of_error stepped] at stack
          simp at stack
        · exact told.step_running keeps driven running stepped

/-- Where a machine stands at a node with finished operands, these were found finished before, and
since then nothing has happened to the frame but hooks for them. -/
theorem Driven.hooked (keeps : host.Keeps) (driven : Driven host m) {frame : Frame}
    {below : List Frame} (stack : m.stack = frame :: below) {last : Nat → Prop} {fold : Fold}
    {value : Frame → Store σ → Nat → Value}
    (settles : Settles host frame.code frame.current last fold value)
    (ready : frame.MetFrom last) :
    ∃ m₀ p runs, Driven host m₀ ∧ last p ∧ m₀.stack = frame.asMet p :: below ∧
      Settling host m₀ runs m ∧ fold.Hooked value (frame.asMet p) frame runs := by
  have whole {m₀ : Machine σ} {p : Nat} {runs : List (HookRun σ)} (driven₀ : Driven host m₀)
      (met : last p) (began : m₀.stack = frame.asMet p :: below)
      (settling : Settling host m₀ runs m) : fold.Hooked value (frame.asMet p) frame runs := by
    obtain ⟨-, _, stack', -, hooked⟩ := settling.hooked_of_began keeps settles driven₀ met began
    cases stack.symm.trans stack'
    exact hooked
  rcases ready with met | same
  · have tidy := (orderly_of_reachable keeps driven.reachable).tidy frame
      (by rw [stack]; exact List.mem_cons_self)
    have began : m.stack = frame.asMet frame.previous :: below := by
      rw [stack, ← eq_asMet tidy settles met]
    exact ⟨m, _, [], driven, met, began, .start, whole driven met began .start⟩
  · cases driven.told keeps [] frame below last fold value stack settles same with
    | inside _ _ _ _ _ _ _ nonempty => exact absurd rfl nonempty
    | settled driven₀ met began settling =>
      exact ⟨_, _, _, driven₀, met, began, settling, whole driven₀ met began settling⟩

end Machine

/-! ## What stands for the operands -/

namespace Fold

theorem conversion?_agree {fold : Fold} {value value' : Nat → Value} {c c' : Conversion}
    (wanted : fold.conversion? value = some c) (wanted' : fold.conversion? value' = some c') :
    c = c' := by
  cases fold with
  | binary op left right =>
    exact Option.some.inj ((Option.ite_none_right_eq_some.mp wanted).2.symm.trans
      (Option.ite_none_right_eq_some.mp wanted').2)
  | unary | logical | choose => exact Option.some.inj (wanted.symm.trans wanted')

section Hooked

variable {fold : Fold} {value : Frame → Store σ → Nat → Value} {first frame : Frame}
  {runs : List (HookRun σ)} (hooked : fold.Hooked value first frame runs)
include hooked

theorem Hooked.used_cases (given : Nat → Value) (operand : Nat) :
    (∀ id, HookRun.used runs given operand ≠ .object id) ∨
      frame.converted.find? operand = none ∧ HookRun.used runs given operand = given operand := by
  cases kept : HookRun.coerced? runs operand with
  | some coerced =>
    rw [HookRun.used, kept, Option.getD_some]
    rw [HookRun.coerced?, Option.map_eq_some_iff] at kept
    obtain ⟨run, found, rfl⟩ := kept
    exact .inl (hooked.primitive run (List.mem_of_find?_eq_some found))
  | none => exact .inr ⟨(hooked.kept operand).trans kept, by rw [HookRun.used, kept]; rfl⟩

/-- What stands for an operand has no hook of the program once no hook is left to run, if the
operands were the same when hooks were asked for. -/
theorem Hooked.plain {s : Store σ} {given : Nat → Value}
    (done : fold.next? given frame.converted s = none)
    (steady : ∀ run ∈ runs, value first run.store = given) {conversion : Conversion}
    (wanted : fold.conversion? (HookRun.used runs given) = some conversion) {operand : Nat}
    (member : operand ∈ fold.operands) :
    s.scriptHook? (HookRun.used runs given operand) conversion.hook = none := by
  rcases hooked.used_cases given operand with primitive | ⟨unsettled, same⟩
  · cases which : HookRun.used runs given operand with
    | object id => exact absurd which (primitive id)
    | _ => rfl
  · have converts : fold.conversion? given = some conversion := by
      cases runs with
      | nil => exact wanted
      | cons run rest =>
        obtain ⟨-, converts, -⟩ := hooked.wanted run List.mem_cons_self
        rw [steady run List.mem_cons_self] at converts
        rw [converts, conversion?_agree converts wanted]
    rw [same]
    exact scriptHook?_of_next? done member converts unsettled

theorem Hooked.complete {s : Store σ} {given : Nat → Value}
    (done : fold.next? given frame.converted s = none) {operand : Nat} {conversion : Conversion}
    {hook : Closure} (wants : fold.Wants given s operand conversion hook) :
    operand ∈ runs.map (·.operand) := by
  by_contra fresh
  have unsettled := (hooked.kept operand).trans (HookRun.coerced?_eq_none.mpr fresh)
  obtain ⟨member, wanted, id, some, -⟩ := wants
  rw [scriptHook?_of_next? done member wanted unsettled] at some
  cases some

end Hooked

end Fold

namespace Machine

/-- Hooks follow their protocol at every node that folds, whatever they do. -/
theorem Driven.protocol (keeps : host.Keeps) {m : Machine σ} (driven : Driven host m)
    {frame : Frame} {below : List Frame} (stack : m.stack = frame :: below) {fold : Fold}
    {value : Frame → Store σ → Nat → Value}
    (settles : Settles host frame.code frame.current (· = fold.decider) fold value)
    (ready : frame.Ready fold) :
    ∃ m₀ runs, Driven host m₀ ∧ m₀.stack = frame.atFirst fold :: below ∧
      Settling host m₀ runs m ∧ fold.Protocol host value m frame below runs := by
  obtain ⟨m₀, _, runs, driven₀, rfl, began, settling, hooked⟩ :=
    driven.hooked keeps stack settles ready
  have poised := ((orderly_of_reachable keeps driven.reachable).tidy frame
    (by rw [stack]; exact List.mem_cons_self)).poised
  refine ⟨m₀, runs, driven₀, began, settling, hooked, fun operand conversion hook asks => ?_,
    fun nothing operand conversion hook => ?_⟩
  · obtain ⟨-, next⟩ := ready_of_asks poised stack settles asks
    obtain ⟨_, _, _, move, unsettled, wants⟩ := Fold.eq_some_of_next? next
    cases move
    exact ⟨HookRun.coerced?_eq_none.mp ((hooked.kept _).symm.trans unsettled), wants,
      invokes_of_asks poised stack settles asks⟩
  · exact hooked.complete (next?_of_asks_nothing poised stack settles ready nothing)

end Machine

end StepScript
