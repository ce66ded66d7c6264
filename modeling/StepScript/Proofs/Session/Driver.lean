import StepScript.Session
import StepScript.Proofs.Lockstep.Steps
import StepScript.Proofs.Session.Watching

/-! Sessions run units as `execute` does.

A session makes the steps of a unit itself, so that it can print a view of the machine after
each of them, and it finds the value of the unit on its own. What it adds changes only what is
printed besides the lines of the program, and no function of the host looks at that. So a run of
a session and a run of the machine come to the same value or error, with the same calls.
-/

set_option autoImplicit false

namespace StepScript

namespace Machine

def watched (m : Machine HostState) : Machine (HostState × List HostCall) :=
  m.withHost (m.store.host, [])

def calls (m : Machine HostState) : List HostCall :=
  (step Seat.watching.host m.watched).2.store.host.2

theorem idle_of_error {σ : Type} {host : Host σ} {m m' : Machine σ} {e : EvalError}
    (failed : step host m = (.error e, m')) : m'.isIdle = true := by
  have stack := stack_of_error (congrArg Prod.fst failed)
  have pending := pending_of_error (congrArg Prod.fst failed)
  rw [failed] at stack pending
  simp only at stack pending
  simp [isIdle, stack, pending]

section Watched

variable (m : Machine HostState)

theorem hosts_watched (m : Machine HostState) :
    Builtin.host.Alike (Seat.Sees m.store.host.wantsDump m.store.host.printed)
      Seat.watching.host := by
  rw [← Seat.plain_host]
  exact (Seat.match_watching _ _).host_alike

theorem alike_watched :
    m.Alike (Seat.Sees m.store.host.wantsDump m.store.host.printed) m.watched :=
  .withHost ⟨rfl, by simp, [], rfl⟩

theorem step_watched :
    Paired (Alike fun h x => x.2 = m.calls ∧
        Seat.Sees m.store.host.wantsDump m.store.host.printed h x) Eq
      (step Builtin.host m) (step Seat.watching.host m.watched) := by
  have stepped := step_alike m.hosts_watched m.alike_watched
  have calls : (step Seat.watching.host m.watched).2.store.host.2 = m.calls := rfl
  generalize step Builtin.host m = result at stepped ⊢
  generalize step Seat.watching.host m.watched = result' at stepped calls ⊢
  rcases result with ⟨e | record, after⟩ <;> rcases result' with ⟨e' | record', after'⟩
  · obtain ⟨same, machines⟩ := stepped
    cases machines with
    | withHost sees => exact ⟨same, .withHost ⟨calls, sees⟩⟩
  · exact stepped.elim
  · exact stepped.elim
  · obtain ⟨same, machines⟩ := stepped
    cases machines with
    | withHost sees => exact ⟨same, .withHost ⟨calls, sees⟩⟩

theorem execute_watched (fuel : Nat) :
    Option.Rel (Paired (Alike fun h x => x.1 = h) Eq) (execute Builtin.host fuel m)
      (execute Seat.watching.host fuel m.watched) := by
  have executed := execute_alike m.hosts_watched fuel m.alike_watched
  generalize execute Builtin.host fuel m = result at executed ⊢
  generalize execute Seat.watching.host fuel m.watched = result' at executed ⊢
  cases executed with
  | none => exact .none
  | some paired =>
    refine .some (paired.mono ?_ fun _ _ same => same)
    intro s t alike
    cases alike with
    | withHost sees => exact .withHost sees.state

end Watched

/-- The same step of a machine whose session has not printed the same views. -/
theorem step_quiet {m : Machine HostState} {before : List HostCall}
    {x : Machine (HostState × List HostCall)}
    (machines : m.Alike (fun h y => y.1.quiet = h.quiet ∧ y.2 = before) x) :
    Paired (Alike fun h y => y.1.quiet = h.quiet ∧ y.2 = before ++ m.calls) Eq
      (step Builtin.host m) (step Seat.watching.host x) := by
  have noted : m.watched.Alike (fun y z => z.1.quiet = y.1.quiet ∧ z.2 = before ++ y.2) x := by
    cases machines with
    | withHost related =>
      exact .withHost (m := m.watched) ⟨related.1, related.2.trans (List.append_nil _).symm⟩
  refine (step_watched m).trans (step_alike (Seat.match_quiet before).host_alike noted) ?_
  intro s t u first second
  cases first with
  | @withHost y known =>
    obtain ⟨calls, sees⟩ := known
    cases second with
    | withHost related =>
      refine .withHost (m := s) ⟨related.1.trans ?_, related.2.trans ?_⟩
      · exact congrArg HostState.quiet sees.state
      · exact congrArg (before ++ ·) calls

end Machine

namespace Session

/-! ## Turns -/

/-- One turn of a run: where it starts, and what its step does. -/
structure Turn where
  before : Session
  result : Except EvalError Record
  machine : Machine HostState

def turn (session : Session) : Turn :=
  let stepped := session.machine.step Builtin.host
  ⟨session, stepped.1, stepped.2⟩

namespace Turn

def after (turn : Turn) : Session :=
  match turn.result with
  | .ok _ => printDump ⟨turn.machine⟩
  | .error _ => ⟨turn.machine⟩

def failed (turn : Turn) : Bool :=
  !turn.result.isOk

def asks (turn : Turn) : Bool :=
  turn.before.machine.calls.any HostCall.asksForView

end Turn

def turns : Nat → Session → List Turn
  | 0, _ => []
  | fuel + 1, session =>
    if session.machine.isIdle then []
    else
      session.turn :: match session.turn.result with
        | .ok _ => turns fuel session.turn.after
        | .error _ => []

/-- The session when a unit has been fed to its machine and its tree printed, if trees are. -/
def begin (session : Session) (code : Code) : Session :=
  let session :=
    if session.machine.store.host.showsTrees then
      session.print (.tree (session.machine.store.codeText code))
    else session
  ⟨session.machine.feed code⟩

def calls (session : Session) (fuel : Nat) (code : Code) : List HostCall :=
  ((session.begin code).turns fuel).flatMap (·.before.machine.calls)

theorem run_of_parsed {source : String} {code : Code} (parsed : parse source = .ok code)
    (fuel : Nat) (session : Session) :
    session.run fuel source = (drive fuel .undefined (session.begin code)).map
      fun (result, session) => (result.mapError .eval, session) := by
  rw [run, parsed]
  rfl

theorem printDump_quiet (m : Machine HostState) :
    ∃ h, (printDump ⟨m⟩).machine = m.withHost h ∧ h.quiet = m.store.host.quiet := by
  unfold printDump
  split
  · exact ⟨_, rfl, rfl⟩
  · exact ⟨m.store.host, rfl, rfl⟩

theorem begin_quiet (session : Session) (code : Code) :
    ∃ h, (session.begin code).machine = (session.machine.feed code).withHost h ∧
      h.quiet = session.machine.store.host.quiet := by
  unfold begin
  simp only
  split
  · exact ⟨_, rfl, rfl⟩
  · exact ⟨session.machine.store.host, rfl, rfl⟩

theorem drive_of_idle {session : Session} (idle : session.machine.isIdle = true) (fuel : Nat)
    (value : Value) : drive fuel value session = some (.ok value, session) := by
  unfold drive
  rw [if_pos idle]

theorem drive_zero {session : Session} (busy : session.machine.isIdle = false) (value : Value) :
    drive 0 value session = none := by
  unfold drive
  rw [if_neg (by simp [busy])]

def kept (value : Value) (record : Record) (machine : Machine HostState) : Value :=
  (Machine.ended? (.ok record, machine)).getD value

theorem drive_succ (fuel : Nat) {session : Session} (busy : session.machine.isIdle = false)
    (value : Value) :
    drive (fuel + 1) value session = match session.machine.step Builtin.host with
      | (.error e, machine) => some (.error e, ⟨machine⟩)
      | (.ok record, machine) => drive fuel (kept value record machine) (printDump ⟨machine⟩) := by
  conv_lhs => unfold drive
  rw [if_neg (by simp [busy])]
  simp only
  rcases session.machine.step Builtin.host with ⟨e | record, machine⟩
  · rfl
  · cases record with
    | normal _ => rfl
    | returned result =>
      simp only [kept, Machine.ended?]
      split
      · rfl
      · rfl

theorem turns_of_idle {session : Session} (idle : session.machine.isIdle = true) (fuel : Nat) :
    session.turns fuel = [] := by
  cases fuel with
  | zero => rfl
  | succ fuel => exact if_pos idle

theorem turns_succ (fuel : Nat) {session : Session} (busy : session.machine.isIdle = false) :
    session.turns (fuel + 1) = session.turn :: match session.machine.step Builtin.host with
      | (.error _, _) => []
      | (.ok _, machine) => (printDump ⟨machine⟩).turns fuel := by
  rw [turns, if_neg (by simp [busy])]
  congr 1
  simp only [turn, Turn.after]
  rcases session.machine.step Builtin.host with ⟨e | record, machine⟩
  · rfl
  · rfl

theorem turn_before (session : Session) : session.turn.before = session := rfl

/-! ## The driver and `execute` -/

/-- The session is at rest, with the same objects as the machine, and with these calls made. -/
def Settled (calls : List HostCall) (session : Session)
    (x : Machine (HostState × List HostCall)) : Prop :=
  session.machine.isIdle = true ∧
    session.machine.store.Alike (fun h y => y.1.quiet = h.quiet ∧ y.2 = calls) x.store

theorem drive_alike_of_idle (fuel : Nat) {value : Value} {session : Session}
    {before : List HostCall} {x : Machine (HostState × List HostCall)}
    (machines : session.machine.Alike (fun h y => y.1.quiet = h.quiet ∧ y.2 = before) x)
    (idle : session.machine.isIdle = true) (last : value = session.machine.last) :
    Option.Rel
      (Paired (Settled (before ++ (session.turns fuel).flatMap (·.before.machine.calls))) Eq)
      (drive fuel value session) (Machine.execute Seat.watching.host fuel x) := by
  rw [drive_of_idle idle, Machine.execute_of_idle _ (machines.idle.trans idle),
    turns_of_idle idle, List.flatMap_nil, List.append_nil]
  cases machines with
  | withHost related => exact .some ⟨last, idle, .withHost related⟩

/-- A session drives its machine as `execute` does a machine with the same objects, however often
views are printed in between. -/
theorem drive_alike (fuel : Nat) (value : Value) (session : Session) (before : List HostCall)
    (x : Machine (HostState × List HostCall))
    (machines : session.machine.Alike (fun h y => y.1.quiet = h.quiet ∧ y.2 = before) x)
    (last : session.machine.isIdle = true → value = session.machine.last) :
    Option.Rel
      (Paired (Settled (before ++ (session.turns fuel).flatMap (·.before.machine.calls))) Eq)
      (drive fuel value session) (Machine.execute Seat.watching.host fuel x) := by
  induction fuel generalizing value session before x with
  | zero =>
    cases idle : session.machine.isIdle with
    | true => exact drive_alike_of_idle 0 machines idle (last idle)
    | false =>
      rw [drive_zero idle, Machine.execute_zero (machines.idle.trans idle)]
      exact .none
  | succ fuel ih =>
    cases idle : session.machine.isIdle with
    | true => exact drive_alike_of_idle (fuel + 1) machines idle (last idle)
    | false =>
      have stepped := Machine.step_quiet machines
      rw [drive_succ fuel idle, Machine.execute_succ fuel (machines.idle.trans idle),
        turns_succ fuel idle, List.flatMap_cons, turn_before, ← List.append_assoc]
      generalize Machine.step Seat.watching.host x = result' at stepped ⊢
      rcases step : session.machine.step Builtin.host with ⟨e | record, machine⟩ <;>
        rw [step] at stepped <;>
        rcases result' with ⟨e' | record', machine'⟩
      · obtain ⟨rfl, alike⟩ := stepped
        have resting : machine.isIdle = true := Machine.idle_of_error step
        rw [List.flatMap_nil, List.append_nil]
        cases alike with
        | withHost related => exact .some ⟨rfl, resting, .withHost related⟩
      · exact stepped.elim
      · exact stepped.elim
      · obtain ⟨rfl, alike⟩ := stepped
        obtain ⟨h, printed, quiet⟩ := printDump_quiet machine
        refine ih (kept value record machine) (printDump ⟨machine⟩) _ machine' ?_ ?_
        · rw [printed]
          cases alike with
          | withHost related =>
            exact .withHost (m := machine.withHost h) ⟨related.1.trans quiet.symm, related.2⟩
        · -- Where nothing is left to do, a unit has ended, and its value is kept on both sides.
          rw [printed]
          intro resting
          obtain ⟨result, ended⟩ := Machine.ended_of_step idle step resting
          have kept_last := Machine.last_step Builtin.host session.machine
          rw [step, ended] at kept_last
          rw [kept, ended]
          exact kept_last.symm

/-! ## Histories -/

/-- Whether a view is owed after a run: its last turn has failed, so that nothing was printed after
it, and had asked for a view, or was the first one and a view was owed before. -/
def owes (owed : Bool) (turns : List Turn) : Bool :=
  turns.getLast?.any fun turn => turn.failed && (turn.asks || (owed && turns.length == 1))

/-- A session after any use of it, and whether a view is owed. Between the runs what was printed may
be taken, and the objects may change. -/
inductive Ran : Session → Bool → Prop where
  | start : Ran Session.start false
  | showTrees {session : Session} {owed : Bool} (before : Ran session owed) (on : Bool) :
    Ran (session.showTrees on) owed
  | takePrinted {session : Session} {owed : Bool} (before : Ran session owed) :
    Ran session.takePrinted.2 owed
  | change {session : Session} {owed : Bool} (before : Ran session owed) (store : HostStore)
    (wish : store.host.wantsDump = session.machine.store.host.wantsDump) :
    Ran ⟨{ session.machine with store := store }⟩ owed
  | refused {session after : Session} {owed : Bool} (before : Ran session owed) {source : String}
    {e : ParseError} (refused : parse source = .error e) {fuel : Nat}
    {result : Except RunError Value} (ran : session.run fuel source = some (result, after)) :
    Ran after owed
  | run {session after : Session} {owed : Bool} (before : Ran session owed) {source : String}
    {code : Code} (parsed : parse source = .ok code) {fuel : Nat}
    {result : Except RunError Value} (ran : session.run fuel source = some (result, after)) :
    Ran after (owes owed ((session.begin code).turns fuel))

theorem drive_idle {fuel : Nat} {value : Value} {session after : Session}
    {result : Except EvalError Value} (driven : drive fuel value session = some (result, after)) :
    after.machine.isIdle = true := by
  fun_induction drive fuel value session with
  | case1 fuel value session idle =>
    cases driven
    exact idle
  | case2 value session busy => cases driven
  | case3 value session busy fuel e machine failed =>
    cases driven
    exact Machine.idle_of_error failed
  | case4 value session busy fuel machine session' result stepped ih => exact ih driven
  | case5 value session busy fuel machine session' result stepped ih => exact ih driven

/-- Whatever a session has been through, nothing runs or waits in it. -/
theorem Ran.idle {session : Session} {owed : Bool} (ran : Ran session owed) :
    session.machine.isIdle = true := by
  induction ran with
  | start => rfl
  | showTrees before on idle => exact idle
  | takePrinted before idle => exact idle
  | change before store wish idle => exact idle
  | refused before refused ran idle =>
    rw [Session.run, refused] at ran
    cases ran
    exact idle
  | run before parsed ran idle =>
    rw [run_of_parsed parsed] at ran
    obtain ⟨driven, came, same⟩ := Option.map_eq_some_iff.mp ran
    cases same
    exact drive_idle came

/-- The store without what a session adds to the state of the host. -/
def quietStore (s : HostStore) : HostStore :=
  s.withHost s.host.quiet

/-- Whatever a session has been through, running a unit in it comes to what feeding the unit to its
machine and executing it comes to: to the same value or error, with the same objects, lines printed
and counts of calls, and with the same calls. Before and after it, nothing runs or waits. -/
theorem run_eq_execute {session : Session} {owed : Bool} (ran : Ran session owed)
    {source : String} {code : Code} (parsed : parse source = .ok code) (fuel : Nat) :
    session.machine.isIdle = true ∧
    ((session.run fuel source).map fun (result, after) =>
        (result, after.machine.isIdle, quietStore after.machine.store)) =
      ((Machine.execute Builtin.host fuel (session.machine.feed code)).map fun (result, after) =>
        (result.mapError .eval, true, quietStore after.store)) ∧
    ((session.run fuel source).map fun _ => session.calls fuel code) =
      ((Machine.execute Seat.watching.host fuel (session.machine.feed code).watched).map
        fun (_, after) => after.store.host.2) := by
  refine ⟨ran.idle, ?_⟩
  obtain ⟨h, begun, quiet⟩ := begin_quiet session code
  -- The host of the session and the one that only watches keep different logs of the same calls.
  have machines : (session.begin code).machine.Alike (fun h y => y.1.quiet = h.quiet ∧ y.2 = [])
      (session.machine.feed code).watched := by
    rw [begun]
    exact .withHost (m := (session.machine.feed code).withHost h) ⟨quiet.symm, rfl⟩
  have busy : (session.begin code).machine.isIdle = false := by
    rw [begun]
    simp [Machine.withHost, Machine.feed, Machine.isIdle]
  have driven := drive_alike fuel .undefined (session.begin code) [] _ machines
    (by simp [busy])
  have watched := (session.machine.feed code).execute_watched fuel
  rw [run_of_parsed parsed]
  -- From here on only what the three runs come to matters.
  generalize drive fuel .undefined (session.begin code) = here at driven ⊢
  generalize Machine.execute Seat.watching.host fuel (session.machine.feed code).watched = there
    at driven watched ⊢
  generalize Machine.execute Builtin.host fuel (session.machine.feed code) = plain at watched ⊢
  cases driven with
  | none =>
    cases watched with
    | none => exact ⟨rfl, rfl⟩
  | @some here there paired =>
    cases watched with
    | @some plain _ paired' =>
      have results : plain.1 = here.1 := paired'.fst_eq.symm.trans paired.fst_eq
      obtain ⟨idle, stores⟩ := paired.states
      have machines' := paired'.states
      obtain ⟨result, after⟩ := here
      obtain ⟨result', machine⟩ := plain
      obtain ⟨result'', x⟩ := there
      simp only at results idle stores machines'
      cases results
      cases machines' with
      | @withHost y same =>
        obtain ⟨quiet', calls⟩ := stores.related
        have objects := stores.withHost_eq after.machine.store.host.quiet
        have host : machine.store.host.quiet = after.machine.store.host.quiet := by
          rw [← quiet', ← same]
          rfl
        refine ⟨?_, congrArg some calls.symm⟩
        simp only [Option.map_some, idle, quietStore, host, ← objects]
        rfl

theorem run_eq_execute_log :
    let source := "console.log('a');"
    let code := Outline.ofRose (.node (.statement .unit) [.node (.statement .expression)
      [.node (.operation .call) [.node (.operation .member)
        [.leaf (.use "console"), .leaf (.literal (.string "log"))],
        .leaf (.literal (.string "a"))]]])
    Ran Session.start false ∧ parse source = .ok code ∧
      Session.start.calls 40 code = [⟨0, .log, [.string "a"]⟩] ∧
      ((Session.start.run 40 source).map fun (result, after) =>
          (result, after.machine.isIdle, quietStore after.machine.store)) =
        (Machine.execute Builtin.host 40 (Session.start.machine.feed code)).map
          fun (result, after) => (result.mapError .eval, true, quietStore after.store) := by
  intro source code
  have parsed : parse source = .ok code := by cbv
  have calls : Session.start.calls 40 code = [⟨0, .log, [.string "a"]⟩] := by cbv
  exact ⟨.start, parsed, calls, (run_eq_execute .start parsed 40).2.1⟩

end Session

end StepScript
