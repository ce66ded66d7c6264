import StepScript.Machine.Expressions

/-! The machine.

The machine runs code one node at a time. Its frames form a stack, the running
one first. A step either moves about in the running frame, pushes a frame for a
call or a hook, or pops it and hands its value to the frame below.
-/

set_option autoImplicit false

namespace StepScript

structure Machine (σ : Type) where
  store : Store σ
  /-- The scope of units. -/
  global : Value
  /-- No call or hook starts when this many frames are running. -/
  depthLimit : Nat
  /-- Units that have not started, the oldest first. -/
  pending : List Code
  /-- The running frames, the innermost first. -/
  stack : List Frame
  /-- The value of the unit that finished last. -/
  last : Value

/-- What a step did: it worked on a node, or it ended a frame. -/
inductive Record where
  | normal (value : Value)
  | returned (value : Value)

namespace Machine

variable {σ : Type} (host : Host σ)

def defaultDepthLimit : Nat := 512

def start (store : Store σ) (global : Value) (depthLimit : Nat) : Machine σ :=
  ⟨store, global, depthLimit, [], [], .undefined⟩

def fresh (store : Store σ) : Machine σ :=
  let (id, store) := store.newObject ⟨.null, []⟩
  start store (.object id) defaultDepthLimit

def depth (m : Machine σ) : Nat :=
  m.stack.length

def isIdle (m : Machine σ) : Bool :=
  m.stack.isEmpty && m.pending.isEmpty

def feed (m : Machine σ) (code : Code) : Machine σ :=
  { m with pending := m.pending ++ [code] }

def abort (m : Machine σ) : Machine σ :=
  { m with stack := [], pending := [] }

/-- The own properties of the scope of a call: each parameter with its argument,
or with `undefined`. -/
def bindParams : List String → List Value → List (String × Value) → List (String × Value)
  | [], _, props => props
  | param :: params, args, props =>
    bindParams params args.tail (insertProp param (args.head?.getD .undefined) props)

def push (m : Machine σ) (kind : FrameKind) (closure : Closure) (args : List Value) :
    Except EvalError (Machine σ) :=
  if m.depthLimit ≤ m.depth then .error (.uncaught .tooManyCalls)
  else
    let (id, store) := m.store.newObject ⟨closure.scope, bindParams closure.params args []⟩
    .ok { m with
      store := store
      stack := Frame.start kind (.object id) closure.body :: m.stack }

/-- The frame after its current node has finished with `value`. -/
def finishNode (frame : Frame) (value : Value) : Except EvalError Frame :=
  match frame.code.parent frame.current with
  | some parent =>
    .ok { frame.keep frame.current value with previous := frame.current, current := parent }
  | none => .error (.breach (.rootFinished frame.current))

/-- Hands the value of a finished frame to the frames below it. -/
def deliver (m : Machine σ) (kind : FrameKind) (value : Value) :
    Except EvalError Unit × Machine σ :=
  match kind, m.stack with
  | .conversion operand conversion, caller :: rest =>
    match (host.convert conversion value).run m.store with
    | (.ok converted, store) =>
      let caller := { caller with converted := caller.converted.insert operand converted }
      (.ok (), { m with store := store, stack := caller :: rest })
    | (.error e, store) => (.error (.ofValueError e), { m with store := store })
  | _, caller :: rest =>
    (.ok (), { m with stack := caller.keep caller.previous value :: rest })
  | _, [] => (.ok (), { m with last := value })

/-- Makes the move of the running frame; `m` has the frames below it. -/
def apply (m : Machine σ) (frame : Frame) : Move → Except EvalError Record × Machine σ
  | .descend child =>
    let frame := { frame with previous := frame.current, current := child }
    (.ok (.normal .undefined), { m with stack := frame :: m.stack })
  | .finish value =>
    match finishNode frame value with
    | .ok frame => (.ok (.normal value), { m with stack := frame :: m.stack })
    | .error e => (.error e, m)
  | .give value =>
    match deliver host m frame.kind value with
    | (.ok _, m) => (.ok (.returned value), m)
    | (.error e, m) => (.error e, m)
  | .call closure args =>
    match push { m with stack := frame :: m.stack } .function closure args with
    | .error e => (.error e, m)
    | .ok pushed =>
      match pushed.stack, finishNode frame .undefined with
      | top :: _, .ok frame =>
        (.ok (.normal .undefined), { pushed with stack := top :: frame :: m.stack })
      | _, .error e => (.error e, pushed)
      | [], .ok _ => (.ok (.normal .undefined), pushed)
  | .convert operand conversion closure =>
    let frame := { frame with previous := frame.current }
    match push { m with stack := frame :: m.stack } (.conversion operand conversion) closure []
      with
    | .error e => (.error e, m)
    | .ok pushed => (.ok (.normal .undefined), pushed)

def stepFrame (m : Machine σ) (frame : Frame) (below : List Frame) :
    Except EvalError Record × Machine σ :=
  let (result, after) := (Handler.node host frame.current).run ⟨frame, m.store⟩
  let m := { m with store := after.store, stack := below }
  match result with
  | .ok move => apply host m after.frame move
  | .error e => (.error e, m)

/-- One step, which starts the next unit if nothing runs and does nothing if
nothing waits. -/
def rawStep (m : Machine σ) : Except EvalError Record × Machine σ :=
  match m.stack, m.pending with
  | frame :: below, _ => stepFrame host m frame below
  | [], code :: pending =>
    stepFrame host { m with pending := pending } (.start .topLevel m.global code) []
  | [], [] => (.ok (.normal .undefined), m)

/-- One step. An error drops everything that runs or waits. -/
def step (m : Machine σ) : Except EvalError Record × Machine σ :=
  match rawStep host m with
  | (.ok record, m) => (.ok record, m)
  | (.error e, m) => (.error e, m.abort)

/-- Runs until nothing runs or waits, in at most `fuel` steps, and takes the value
of the last unit. -/
def execute : Nat → Machine σ → Option (Except EvalError Value × Machine σ)
  | fuel, m =>
    if m.isIdle then some (.ok m.last, { m with last := .undefined })
    else match fuel with
      | 0 => none
      | fuel + 1 =>
        match step host m with
        | (.ok _, m) => execute fuel m
        | (.error e, m) => some (.error e, m)

end Machine

end StepScript
