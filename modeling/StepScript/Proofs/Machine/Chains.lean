import Mathlib
import StepScript.Proofs.Grammar.Literals
import StepScript.Proofs.Host.References
import StepScript.Proofs.Machine.References

/-! Prototype chains end while programs run.

A step makes a store develop: calls and hooks get new scopes, which go on to scopes
that are there, object literals go on to nothing, and all else that is written are
properties. So chains end as long as the host is faithful, and the searches of names
and properties, which have no bound of their own, find their way out. For a property
may refer to anything, but a search never goes along one.
-/

set_option autoImplicit false

namespace StepScript

variable {σ : Type}

theorem Frame.Within.start {n : Nat} {scope : Value} {code : Code} (kind : FrameKind)
    (within : scope.Within n) (plain : code.Plain) : (Frame.start kind scope code).Within n :=
  ⟨within, plain, .empty n, .empty n⟩

namespace Machine

variable {host : Host σ} {held : σ → Value → Prop} {base : Store σ} {n : Nat}

structure Sits (held : σ → Value → Prop) (base : Store σ) (n : Nat) (m : Machine σ) : Prop where
  store : Store.Follows held base n m.store
  frames : ∀ frame ∈ m.stack, frame.Within n
  units : ∀ code ∈ m.pending, code.Plain
  global : m.global.Within n
  last : m.last.Within n

namespace Sits

variable {m : Machine σ} (sits : m.Sits held base n)
include sits

theorem develop {k : Nat} (le : n ≤ k) {store : Store σ}
    (follows : Store.Follows held base k store) : { m with store := store }.Sits held base k :=
  ⟨follows, fun frame member => (sits.frames frame member).mono le, sits.units,
    sits.global.mono le, sits.last.mono le⟩

theorem running {frame : Frame} {below : List Frame} (whole : m.stack = frame :: below) :
    frame.Within n ∧ ∀ other ∈ below, other.Within n := by
  have frames := sits.frames
  rw [whole] at frames
  exact List.forall_mem_cons.mp frames

theorem restack {stack : List Frame} (frames : ∀ frame ∈ stack, frame.Within n) :
    { m with stack := stack }.Sits held base n :=
  ⟨sits.store, frames, sits.units, sits.global, sits.last⟩

theorem cover {frame : Frame} (within : frame.Within n) :
    { m with stack := frame :: m.stack }.Sits held base n :=
  sits.restack (List.forall_mem_cons.mpr ⟨within, sits.frames⟩)

theorem rebase : m.Sits held m.store n :=
  ⟨⟨.refl m.store, sits.store.closed, sits.store.size⟩, sits.frames, sits.units, sits.global,
    sits.last⟩

theorem abort : m.abort.Sits held base n :=
  ⟨sits.store, List.forall_mem_nil _, List.forall_mem_nil _, sits.global, sits.last⟩

end Sits

theorem within_bindParams (params : List String) {args : List Value}
    {props : List (String × Value)} (given : ∀ arg ∈ args, arg.Within n)
    (old : ∀ prop ∈ props, prop.2.Within n) :
    ∀ prop ∈ bindParams params args props, prop.2.Within n := by
  induction params generalizing args props with
  | nil => exact old
  | cons param params ih =>
    exact ih (fun arg member => given arg (List.mem_of_mem_tail member))
      (within_insertProp old (within_head given))

theorem sits_push {m pushed : Machine σ} (sits : m.Sits held base n) {kind : FrameKind}
    {closure : Closure} {args : List Value} (within : closure.Within n)
    (given : ∀ arg ∈ args, arg.Within n) (done : m.push kind closure args = .ok pushed) :
    pushed.Sits held base (n + 1) := by
  unfold push at done
  split at done
  · cases done
  · cases done
    have scope : Object.Within n ⟨closure.scope, bindParams closure.params args []⟩ :=
      ⟨within.scope, within_bindParams _ given (List.forall_mem_nil _)⟩
    have grown := sits.develop (Nat.le_succ n) (sits.store.newObject scope)
    exact grown.cover (.start kind sits.store.size_lt within.body)

theorem within_finishNode {frame finished : Frame} {value : Value} (here : frame.Within n)
    (within : value.Within n) (done : finishNode frame value = .ok finished) :
    finished.Within n := by
  unfold finishNode at done
  split at done
  · cases done
    exact (here.keep frame.current within).move _ _
  · cases done

section Steps

variable (faithful : host.Faithful held)
include faithful

theorem sits_deliver {m : Machine σ} (sits : m.Sits held base n) (kind : FrameKind)
    {value : Value} (within : value.Within n) :
    ∃ k ≥ n, (deliver host m kind value).2.Sits held base k := by
  unfold deliver
  split
  case h_1 operand conversion caller rest whole =>
    have leads := Host.leads_convert (n := n) (faithful.hooks base) conversion value
    obtain ⟨k, le, follows, primitive⟩ := leads m.store sits.store
    have grown := sits.develop le follows
    obtain ⟨first, others⟩ := grown.running whole
    split
    case h_1 converted store run =>
      rw [run] at grown primitive
      have kept := first.converted.insert operand ((primitive _ rfl).mono (Nat.zero_le k))
      exact ⟨k, le, grown.restack
        (List.forall_mem_cons.mpr ⟨⟨first.scope, first.code, first.memo, kept⟩, others⟩)⟩
    case h_2 e store run =>
      rw [run] at grown
      exact ⟨k, le, grown⟩
  case h_2 caller rest _ whole =>
    obtain ⟨first, others⟩ := sits.running whole
    exact ⟨n, Nat.le_refl n, sits.restack
      (List.forall_mem_cons.mpr ⟨first.keep caller.previous within, others⟩)⟩
  case h_3 =>
    exact ⟨n, Nat.le_refl n, sits.store, sits.frames, sits.units, sits.global, within⟩

theorem sits_apply {m : Machine σ} (sits : m.Sits held base n) {frame : Frame}
    (here : frame.Within n) {move : Move} (within : move.Within n) :
    ∃ k ≥ n, (apply host m frame move).2.Sits held base k := by
  cases move with
  | descend child =>
    exact ⟨n, Nat.le_refl n, sits.cover (here.move child frame.current)⟩
  | finish value =>
    refine ⟨n, Nat.le_refl n, ?_⟩
    unfold apply
    dsimp only
    split
    case h_1 finished done => exact sits.cover (within_finishNode here within done)
    case h_2 => exact sits
  | give value =>
    obtain ⟨k, le, after⟩ := sits_deliver faithful sits frame.kind within
    refine ⟨k, le, ?_⟩
    unfold apply
    dsimp only
    split
    case h_1 run =>
      rw [run] at after
      exact after
    case h_2 run =>
      rw [run] at after
      exact after
  | call closure args =>
    unfold apply
    dsimp only
    split
    case h_1 => exact ⟨n, Nat.le_refl n, sits⟩
    case h_2 pushed done =>
      have grown := sits_push (sits.cover here) within.1 within.2 done
      refine ⟨n + 1, Nat.le_succ n, ?_⟩
      split
      case h_1 top rest finished whole ended =>
        -- The call runs on top of the caller, which has finished its node in advance.
        have first := (grown.running whole).1
        have nothing : Value.Within n .undefined := trivial
        have caller := within_finishNode here nothing ended
        refine grown.restack (List.forall_mem_cons.mpr
          ⟨first, List.forall_mem_cons.mpr ⟨caller.mono (Nat.le_succ n), fun frame member => ?_⟩⟩)
        exact (sits.frames frame member).mono (Nat.le_succ n)
      case h_2 | h_3 => exact grown
  | convert operand conversion closure =>
    unfold apply
    dsimp only
    split
    case h_1 => exact ⟨n, Nat.le_refl n, sits⟩
    case h_2 pushed done =>
      have waiting := sits.cover (here.move frame.current frame.current)
      exact ⟨n + 1, Nat.le_succ n, sits_push waiting within (List.forall_mem_nil _) done⟩

theorem sits_stepFrame {m : Machine σ} (sits : m.Sits held base n) {frame : Frame}
    {below : List Frame} (here : frame.Within n) (rest : ∀ frame ∈ below, frame.Within n) :
    ∃ k ≥ n, (stepFrame host m frame below).2.Sits held base k := by
  obtain ⟨k, le, after, moves⟩ :=
    Handler.leads_node faithful frame.current ⟨frame, m.store⟩ ⟨here, sits.store⟩
  have grown := (sits.restack rest).develop le after.store
  unfold stepFrame
  rcases run : (Handler.node host frame.current).run ⟨frame, m.store⟩ with ⟨e | move, last⟩
  · rw [run] at grown
    exact ⟨k, le, grown⟩
  · rw [run] at grown after moves
    obtain ⟨j, more, done⟩ := sits_apply faithful grown after.frame (moves move rfl)
    exact ⟨j, Nat.le_trans le more, done⟩

theorem sits_rawStep {m : Machine σ} (sits : m.Sits held base n) :
    ∃ k ≥ n, (rawStep host m).2.Sits held base k := by
  unfold rawStep
  split
  case h_1 frame below whole =>
    obtain ⟨first, rest⟩ := sits.running whole
    exact sits_stepFrame faithful sits first rest
  case h_2 code pending _ whole =>
    have units := sits.units
    rw [whole] at units
    obtain ⟨first, rest⟩ := List.forall_mem_cons.mp units
    have started : { m with pending := pending }.Sits held base n :=
      ⟨sits.store, sits.frames, rest, sits.global, sits.last⟩
    exact sits_stepFrame faithful started (.start .topLevel sits.global first)
      (List.forall_mem_nil _)
  case h_3 => exact ⟨n, Nat.le_refl n, sits⟩

/-- One step goes on to a store with at least as many objects. -/
theorem sits_step {m : Machine σ} (sits : m.Sits held base n) :
    ∃ k ≥ n, (step host m).2.Sits held base k := by
  obtain ⟨k, le, after⟩ := sits_rawStep faithful sits
  refine ⟨k, le, ?_⟩
  unfold step
  rcases run : rawStep host m with ⟨e | record, last⟩
  · rw [run] at after
    exact after.abort
  · rw [run] at after
    exact after

end Steps

/-- The machines that can come about from `base` when only parsed programs are fed. Between two
steps the host may do what its functions may do inside of them. -/
inductive Arises (host : Host σ) (held : σ → Value → Prop) (base : Store σ) :
    Machine σ → Prop where
  | start {global : Value} (within : global.Within base.objects.size) (depthLimit : Nat) :
    Arises host held base (Machine.start base global depthLimit)
  | feed {m : Machine σ} {source : String} {code : Code} (before : Arises host held base m)
    (parsed : parse source = .ok code) : Arises host held base (m.feed code)
  | step {m : Machine σ} (before : Arises host held base m) :
    Arises host held base (step host m).2
  | change {m : Machine σ} (before : Arises host held base m) {store : Store σ}
    (develops : m.store.Develops store) (closed : store.Closed held) {global last : Value}
    (scope : global.Within store.objects.size) (value : last.Within store.objects.size)
    (depthLimit : Nat) :
    Arises host held base
      { m with store := store, global := global, depthLimit := depthLimit, last := last }

theorem Arises.steps {m : Machine σ} (arises : Arises host held base m) (count : Nat) :
    Arises host held base (Nat.repeat (fun m => (Machine.step host m).2) count m) := by
  induction count with
  | zero => exact arises
  | succ count ih => exact .step ih

theorem sits_of_arises (faithful : host.Faithful held) (closed : base.Closed held)
    {m : Machine σ} (arises : Arises host held base m) : ∃ n, m.Sits held base n := by
  induction arises with
  | start within depthLimit =>
    exact ⟨_, .refl closed, List.forall_mem_nil _, List.forall_mem_nil _, within, trivial⟩
  | feed before parsed sits =>
    obtain ⟨n, sits⟩ := sits
    refine ⟨n, sits.store, sits.frames, fun code member => ?_, sits.global, sits.last⟩
    rcases List.mem_append.mp member with old | new
    · exact sits.units code old
    · rw [List.mem_singleton.mp new]
      exact plain_parse parsed
  | step before sits =>
    obtain ⟨n, sits⟩ := sits
    obtain ⟨k, -, after⟩ := sits_step faithful sits
    exact ⟨k, after⟩
  | change before develops closed scope value depthLimit sits =>
    obtain ⟨n, sits⟩ := sits
    have le := sits.store.size ▸ develops.grows
    exact ⟨_, ⟨sits.store.develops.trans develops, closed, rfl⟩,
      fun frame member => (sits.frames frame member).mono le, sits.units, scope, value⟩

/-- The machine arises, with a faithful host, from a store of which no reference leads nowhere. -/
def Grounded (host : Host σ) (m : Machine σ) : Prop :=
  ∃ (held : σ → Value → Prop) (base : Store σ), host.Faithful held ∧ base.Closed held ∧
    Arises host held base m

theorem Grounded.sits {m : Machine σ} (grounded : m.Grounded host) :
    ∃ held base n, m.Sits held base n :=
  have ⟨held, base, faithful, closed, arises⟩ := grounded
  ⟨held, base, sits_of_arises faithful closed arises⟩

/-- Let all chains end in the store that a machine starts with. Then they end in the store of
every machine that arises from it, and in every store that this one develops into, such as those
in the middle of a step. So each search for a name or a property ends, with the owner. Whatever
the machine refers to is an object of its store, above all the scopes of its frames. -/
theorem chains_end (faithful : host.Faithful held) (closed : base.Closed held)
    (ends : ∀ id < base.objects.size, base.Ends id) {m : Machine σ}
    (arises : Arises host held base m) :
    m.store.Searchable ∧
      (∀ s, m.store.Develops s → s.Closed held → s.Searchable) ∧
      m.store.Develops (step host m).2.store ∧ m.store.Closed held ∧
      (∀ frame ∈ m.stack, frame.scope.Within m.store.objects.size) ∧
      m.global.Within m.store.objects.size := by
  obtain ⟨n, sits⟩ := sits_of_arises faithful closed arises
  have here := sits.store.develops.searchable closed.rooted sits.store.closed.rooted ends
  obtain ⟨k, -, next⟩ := sits_step faithful sits.rebase
  obtain ⟨develops, whole, rfl⟩ := sits.store
  exact ⟨here, fun s more other => (develops.trans more).searchable closed.rooted other.rooted ends,
    next.store.develops, whole, fun frame member => (sits.frames frame member).scope, sits.global⟩

/-- In the middle of a call whose scope goes on to that of the unit, an object has become its own
property. -/
theorem chains_end_of_circle :
    let source := "(function (o) \x7bo.o = o;\x7d)(\x7b\x7d);"
    let code := Outline.ofRose (.node (.statement .unit) [.node (.statement .expression) [
      .node (.operation .call) [
        .node (.operation .grouping) [.node (.operation .functionLiteral) [
          .leaf (.literal .undefined), .leaf (.literal (.string "o")),
          .node (.statement .block) [.node (.statement .expression) [
            .node (.operation .assign) [
              .node (.operation .member) [.leaf (.use "o"), .leaf (.literal (.string "o"))],
              .leaf (.use "o")]]]]],
        .node (.operation .objectLiteral) []]]])
    let m := Nat.repeat (fun m => (step Builtin.host m).2) 20 (Session.start.machine.feed code)
    parse source = .ok code ∧ (m.store.own? 2 "o").any (·.strictEquals (.object 2)) = true ∧
      m.stack.map (Store.objectOf ·.scope |>.toOption) = [some 3, some 0] ∧ m.store.Ends 3 ∧
      m.store.Search "console" 3 (some 0) ∧ m.store.Search "p" 2 none := by
  intro source code m
  have parsed : parse source = .ok code := by cbv
  have size : m.store.objects.size = 4 := by decide +kernel
  have circle : (m.store.own? 2 "o").any (·.strictEquals (.object 2)) = true := by decide +kernel
  have scopes : m.stack.map (Store.objectOf ·.scope |>.toOption) = [some 3, some 0] := by
    decide +kernel
  have outside : m.store.owner? 3 "console" = some 0 := by decide +kernel
  have nowhere : m.store.owner? 2 "p" = none := by decide +kernel
  have begun := Session.follows_start
  have global : Value.Within Session.start.machine.store.objects.size (.object 0) :=
    Nat.lt_of_lt_of_eq Nat.zero_lt_two begun.size.symm
  have fed : Arises Builtin.host HostState.Holds Session.start.machine.store
      (Session.start.machine.feed code) :=
    .feed (.start global Machine.defaultDepthLimit) parsed
  obtain ⟨searchable, -⟩ := chains_end Builtin.faithful_host begun.closed
    (fun id _ => Session.ends_start id) (fed.steps 20)
  obtain ⟨chain, found⟩ := searchable 3 (by rw [size]; decide)
  obtain ⟨-, lost⟩ := searchable 2 (by rw [size]; decide)
  exact ⟨parsed, circle, scopes, chain, outside ▸ found "console", nowhere ▸ lost "p"⟩

end Machine

end StepScript
