import Mathlib
import StepScript.Proofs.Machine.Handlers

/-! Parsed programs bring about no breach.

A machine is sound if all its frames are poised, all its pending units are shaped
and its closures have shaped blocks. One step keeps a machine sound and does not
end in a breach, because handlers make legal moves and legal moves keep frames
poised. By induction this holds of every machine that is only fed parsed
programs, whatever the host does between and inside of the steps.
-/

set_option autoImplicit false

namespace StepScript

variable {σ : Type}

namespace Frame.Poised

variable {frame : Frame}

theorem start {s : Statement} {code : Code} (kind : FrameKind) (scope : Value)
    (rooted : code.Rooted s) (which : s = .unit ∨ s = .block) :
    (Frame.start kind scope code).Poised :=
  ⟨⟨s, rooted, which⟩, rooted.size_pos, .start rfl rfl⟩

theorem congr {frame' : Frame} (poised : frame.Poised) (code : frame'.code = frame.code)
    (current : frame'.current = frame.current) (previous : frame'.previous = frame.previous) :
    frame'.Poised := by
  obtain ⟨rooted, inside, stance⟩ := poised
  exact ⟨by rw [code]; exact rooted, by rw [code, current]; exact inside,
    by rw [code, current, previous]; exact stance⟩

theorem descend (poised : frame.Poised) {child : Nat}
    (legal : child ∈ frame.code.children frame.current) :
    { frame with previous := frame.current, current := child }.Poised :=
  ⟨poised.rooted, Handler.inside_of_child poised legal, .entered legal poised.inside⟩

theorem wait (poised : frame.Poised) (below : (frame.code.parent frame.current).isSome = true)
    (folds : (frame.code.get? frame.current).all Node.folds = true) :
    { frame with previous := frame.current }.Poised :=
  ⟨poised.rooted, poised.inside, .waited rfl below folds⟩

theorem finish (poised : frame.Poised) (value : Value)
    (below : (frame.code.parent frame.current).isSome = true) :
    ∃ frame', Machine.finishNode frame value = .ok frame' ∧ frame'.Poised := by
  obtain ⟨s, rooted, -⟩ := poised.rooted
  -- Only the root has no parent, and every other node is a child of its parent.
  have inner : frame.current ≠ 0 := by
    intro root
    rw [root] at below
    cases below
  obtain ⟨parent, above, inside, member⟩ := rooted.exists_parent poised.inside inner
  refine ⟨{ frame.keep frame.current value with previous := frame.current, current := parent },
    ?_, poised.rooted, inside, .resumed member⟩
  unfold Machine.finishNode
  rw [above]

end Frame.Poised

namespace Machine

variable {host : Host σ}

structure Sound (m : Machine σ) : Prop where
  bodies : m.store.Bodies
  poised : ∀ frame ∈ m.stack, frame.Poised
  units : ∀ code ∈ m.pending, code.Rooted .unit

theorem Sound.abort {m : Machine σ} (bodies : m.store.Bodies) : m.abort.Sound :=
  ⟨bodies, by simp [Machine.abort], by simp [Machine.abort]⟩

/-- What a step may end with: no breach, and a sound machine once an error has cleared it. -/
def Harmless {α : Type} : Except EvalError α × Machine σ → Prop
  | (.ok _, m) => m.Sound
  | (.error e, m) => (∀ b, e ≠ .breach b) ∧ m.store.Bodies

theorem push_cases (m : Machine σ) (kind : FrameKind) (closure : Closure) (args : List Value) :
    m.push kind closure args = .error (.uncaught .tooManyCalls) ∨
      ∃ scope, m.push kind closure args =
        .ok { m with
          store := (m.store.newObject ⟨closure.scope, bindParams closure.params args []⟩).2
          stack := Frame.start kind scope closure.body :: m.stack } := by
  unfold push
  split
  · exact .inl rfl
  · exact .inr ⟨_, rfl⟩

theorem harmless_deliver (keeps : host.Keeps) {m : Machine σ} (sound : m.Sound)
    (kind : FrameKind) (value : Value) : Harmless (deliver host m kind value) := by
  -- Delivering a value changes what the caller keeps, not where it stands.
  have kept (caller : Frame) (rest : List Frame) (whole : m.stack = caller :: rest)
      (changed : Frame) (code : changed.code = caller.code)
      (current : changed.current = caller.current) (previous : changed.previous = caller.previous)
      (frame : Frame) (member : frame ∈ changed :: rest) : frame.Poised := by
    rcases List.mem_cons.mp member with rfl | member
    · refine (sound.poised caller ?_).congr code current previous
      rw [whole]
      exact List.mem_cons_self
    · refine sound.poised frame ?_
      rw [whole]
      exact List.mem_cons_of_mem caller member
  unfold deliver
  split
  case h_1 operand conversion caller rest whole =>
    have bodies := keeps.convert conversion value m.store sound.bodies
    split
    case h_1 converted store run =>
      rw [run] at bodies
      exact ⟨bodies, kept caller rest whole _ rfl rfl rfl, sound.units⟩
    case h_2 e store run =>
      rw [run] at bodies
      exact ⟨Handler.ofValueError_ne_breach e, bodies⟩
  case h_2 caller rest _ whole =>
    exact ⟨sound.bodies, kept caller rest whole _ rfl rfl rfl, sound.units⟩
  case h_3 => exact ⟨sound.bodies, sound.poised, sound.units⟩

/-- Legal moves are harmless; `m` has the frames below the moving one. -/
theorem harmless_apply (keeps : host.Keeps) {m : Machine σ} (sound : m.Sound) {frame : Frame}
    (poised : frame.Poised) {move : Move} (legal : move.Legal frame) :
    Harmless (apply host m frame move) := by
  have stacked (top : Frame) (ready : top.Poised) (below : List Frame)
      (rest : ∀ frame ∈ below, frame.Poised) : ∀ frame ∈ top :: below, frame.Poised :=
    List.forall_mem_cons.mpr ⟨ready, rest⟩
  cases move with
  | descend child =>
    exact ⟨sound.bodies, stacked _ (poised.descend legal) _ sound.poised, sound.units⟩
  | finish value =>
    obtain ⟨finished, done, ready⟩ := poised.finish value legal
    simp only [apply, done]
    exact ⟨sound.bodies, stacked _ ready _ sound.poised, sound.units⟩
  | give value =>
    have harmless := harmless_deliver keeps sound frame.kind value
    rcases run : deliver host m frame.kind value with ⟨e | _, after⟩
    · rw [run] at harmless
      simp only [apply, run]
      exact harmless
    · rw [run] at harmless
      simp only [apply, run]
      exact harmless
  | call closure args =>
    obtain ⟨below, rooted⟩ := legal
    -- The caller is finished before the call begins, so it resumes its parent when the call ends.
    obtain ⟨finished, done, ready⟩ := poised.finish .undefined below
    rcases push_cases { m with stack := frame :: m.stack } .function closure args with
      refused | ⟨scope, pushed⟩
    · simp only [apply, refused]
      exact ⟨by simp, sound.bodies⟩
    · simp only [apply, pushed, done]
      exact ⟨sound.bodies.newObject _, stacked _ (.start _ _ rooted (.inr rfl)) _
        (stacked _ ready _ sound.poised), sound.units⟩
  | convert operand conversion closure =>
    obtain ⟨below, folds, rooted⟩ := legal
    rcases push_cases { m with stack := { frame with previous := frame.current } :: m.stack }
      (.conversion operand conversion) closure [] with refused | ⟨scope, pushed⟩
    · simp only [apply, refused]
      exact ⟨by simp, sound.bodies⟩
    · simp only [apply, pushed]
      exact ⟨sound.bodies.newObject _, stacked _ (.start _ _ rooted (.inr rfl)) _
        (stacked _ (poised.wait below folds) _ sound.poised), sound.units⟩

theorem harmless_stepFrame (keeps : host.Keeps) {m : Machine σ} {frame : Frame}
    {below : List Frame} (bodies : m.store.Bodies) (poised : frame.Poised)
    (rest : ∀ frame ∈ below, frame.Poised) (units : ∀ code ∈ m.pending, code.Rooted .unit) :
    Harmless (stepFrame host m frame below) := by
  have fine := Handler.safe_node poised keeps ⟨frame, m.store⟩ ⟨rfl, rfl, rfl, bodies⟩
  unfold stepFrame
  rcases run : (Handler.node host frame.current).run ⟨frame, m.store⟩ with ⟨e | move, after⟩
  · rw [run] at fine
    exact fine
  · rw [run] at fine
    obtain ⟨steady, legal⟩ := fine
    have moved : after.frame.Poised := poised.congr steady.code steady.current steady.previous
    -- The handler may have kept or taken values, but its move was judged by where the frame stands.
    have same : move.Legal after.frame := by
      unfold Move.Legal at legal ⊢
      rw [steady.code, steady.current]
      exact legal
    exact harmless_apply (m := { m with store := after.store, stack := below }) keeps
      ⟨steady.bodies, rest, units⟩ moved same

theorem harmless_rawStep (keeps : host.Keeps) {m : Machine σ} (sound : m.Sound) :
    Harmless (rawStep host m) := by
  unfold rawStep
  split
  case h_1 frame below whole =>
    have frames := sound.poised
    rw [whole] at frames
    obtain ⟨first, rest⟩ := List.forall_mem_cons.mp frames
    exact harmless_stepFrame keeps sound.bodies first rest sound.units
  case h_2 code pending _ whole =>
    have units := sound.units
    rw [whole] at units
    obtain ⟨first, rest⟩ := List.forall_mem_cons.mp units
    exact harmless_stepFrame keeps sound.bodies (.start _ _ first (.inl rfl)) (by simp) rest
  case h_3 => exact sound

theorem sound_step (keeps : host.Keeps) {m : Machine σ} (sound : m.Sound) :
    (step host m).2.Sound ∧ ∀ b, (step host m).1 ≠ .error (.breach b) := by
  have harmless := harmless_rawStep keeps sound
  unfold step
  rcases run : rawStep host m with ⟨e | record, after⟩
  · rw [run] at harmless
    exact ⟨.abort harmless.2, by simpa using harmless.1⟩
  · rw [run] at harmless
    exact ⟨harmless, by simp⟩

/-- The machines that can come about when only parsed programs are fed. Between two steps
anything but the frames and the units may change, as long as no closures appear but such with
shaped blocks. -/
inductive Reachable (host : Host σ) : Machine σ → Prop where
  | start {store : Store σ} (bodies : store.Bodies) (global : Value) (depthLimit : Nat) :
    Reachable host (Machine.start store global depthLimit)
  | feed {m : Machine σ} {source : String} {code : Code} (before : Reachable host m)
    (parsed : parse source = .ok code) : Reachable host (m.feed code)
  | step {m : Machine σ} (before : Reachable host m) : Reachable host (step host m).2
  | change {m : Machine σ} (before : Reachable host m) {store : Store σ} (bodies : store.Bodies)
    (global last : Value) (depthLimit : Nat) :
    Reachable host
      { m with store := store, global := global, depthLimit := depthLimit, last := last }

theorem sound_of_reachable (keeps : host.Keeps) {m : Machine σ} (reachable : Reachable host m) :
    m.Sound := by
  induction reachable with
  | start bodies global depthLimit =>
    exact ⟨bodies, by simp [Machine.start], by simp [Machine.start]⟩
  | feed before parsed sound =>
    refine ⟨sound.bodies, sound.poised, fun code member => ?_⟩
    rcases List.mem_append.mp member with old | new
    · exact sound.units code old
    · rw [List.mem_singleton.mp new]
      exact rooted_parse parsed
  | step before sound => exact (sound_step keeps sound).1
  | change before bodies global last depthLimit sound =>
    exact ⟨bodies, sound.poised, sound.units⟩

theorem Reachable.steps {m : Machine σ} (reachable : Reachable host m) (count : Nat) :
    Reachable host (Nat.repeat (fun m => (Machine.step host m).2) count m) := by
  induction count with
  | zero => exact reachable
  | succ count ih => exact .step ih

end Machine

/-! ## A host without effects

Programs that run over it have one object to begin with, the scope of all units. -/

namespace Bare

def host : Host Unit :=
  ⟨fun _ _ => pure .undefined⟩

def store : Store Unit :=
  ⟨#[⟨.null, []⟩], #[], #[], ()⟩

def begun (code : Code) : Machine Unit :=
  (Machine.start store (.object 0) 512).feed code

/-- What `count` steps make of the unit. -/
def after (code : Code) (count : Nat) : Machine Unit :=
  Nat.repeat (fun m => (Machine.step host m).2) count (begun code)

theorem keeps : host.Keeps :=
  fun _ _ => .pure _

theorem bodies : store.Bodies :=
  fun _ member => (List.not_mem_nil (List.mem_toArray.mp member)).elim

theorem reachable_after {source : String} {code : Code} (parsed : parse source = .ok code)
    (count : Nat) : Machine.Reachable host (after code count) :=
  .steps (.feed (.start bodies _ 512) parsed) count

def calling : Code :=
  let inner : Rose Node := .node (.operation .functionLiteral) [.leaf (.literal .undefined),
    .leaf (.literal (.string "x")), .node (.statement .block) [
      .node (.statement .ret) [.leaf (.use "x")]]]
  let outer : Rose Node := .node (.operation .functionLiteral) [.leaf (.literal .undefined),
    .leaf (.literal (.string "f")), .node (.statement .block) [
      .node (.statement .ret) [.node (.operation .call) [.leaf (.use "f"), .leaf (.use "f")]]]]
  .ofRose (.node (.statement .unit) [.node (.statement .expression) [
    .node (.operation .call) [.node (.operation .grouping) [outer], inner]]])

theorem parse_calling :
    parse "(function (f) \x7breturn f(f);\x7d)(function (x) \x7breturn x;\x7d);" = .ok calling := by
  cbv

def hooked : Rose Node :=
  .node (.operation .objectLiteral) [.leaf (.literal (.string "to_double")),
    .node (.operation .grouping) [.node (.operation .functionLiteral) [
      .leaf (.literal .undefined), .node (.statement .block) [.leaf (.statement .ret)]]]]

def subtraction : Code :=
  .ofRose (.node (.statement .unit) [.node (.statement .expression) [
    .node (.operation .subtract) [.node (.operation .grouping) [hooked], hooked]]])

theorem parse_subtraction :
    parse ("(\x7bto_double: function () \x7breturn;\x7d\x7d) - " ++
      "\x7bto_double: function () \x7breturn;\x7d\x7d;") = .ok subtraction := by
  cbv

end Bare

namespace Machine

variable {host : Host σ}

/-- No parsed program brings about a breach. -/
theorem step_ne_breach (keeps : host.Keeps) {m : Machine σ} (reachable : Reachable host m)
    (b : Breach) : (step host m).1 ≠ .error (.breach b) :=
  (sound_step keeps (sound_of_reachable keeps reachable)).2 b

/-- The outer call runs, and the next step begins the inner one. -/
theorem step_ne_breach_of_call :
    let m := Bare.after Bare.calling 15
    Bare.host.Keeps ∧ Reachable Bare.host m ∧ m.stack.length = 2 ∧
      (step Bare.host m).2.stack.length = 3 ∧
      (step Bare.host m).1 ≠ .error (.breach (.unrelated 2 4)) :=
  have reachable := Bare.reachable_after Bare.parse_calling 15
  ⟨Bare.keeps, reachable, by decide +kernel, by decide +kernel,
    step_ne_breach Bare.keeps reachable _⟩

end Machine

end StepScript
