import StepScript.Proofs.Session.Driver

/-! Views of the machine.

A program asks for a view of the machine with a call of `debug` without arguments, and the
session prints it after the step in which the call was made. Where that step fails, nothing is
printed and the wish stays, so that the next run prints a view after its first step. These are
the only views there are.
-/

set_option autoImplicit false

namespace StepScript

variable {σ τ : Type}

/-! ## A view does not show the state of the host -/

namespace Store

variable (s : Store σ) (h : τ)

theorem shown_withHost (value : Value) : (s.withHost h).shown value = s.shown value := by
  cases value with
  | function f => rw [shown, shown, functionName_withHost]
  | object id => rw [shown, shown, text_withHost]
  | _ => rfl

theorem nodeText_withHost (node : Node) : (s.withHost h).nodeText node = s.nodeText node := by
  unfold nodeText
  split
  · rfl
  · rfl
  · rfl
  · rfl
  · rfl
  · rw [text_withHost]

end Store

theorem Frame.text_withHost (frame : Frame) (s : Store σ) (h : τ) :
    frame.text (s.withHost h) = frame.text s := by
  have nodes : (s.withHost h).nodeText = s.nodeText := funext (s.nodeText_withHost h)
  simp only [Frame.text, Store.codeText, nodes, Store.text_withHost, Store.shown_withHost]

theorem framesText_withHost (s : Store σ) (h : τ) (depth : Nat) (frames : List Frame) :
    framesText (s.withHost h) depth frames = framesText s depth frames := by
  induction frames generalizing depth with
  | nil => rfl
  | cons frame above ih => rw [framesText, framesText, Frame.text_withHost, ih]

theorem Machine.text_withHost (m : Machine σ) (h : τ) : (m.withHost h).text = m.text := by
  have frames := framesText_withHost m.store h 0 m.stack.reverse
  have global := m.store.text_withHost h m.global
  unfold Machine.text
  rw [← frames, ← global]
  rfl

namespace Session

/-! ## One turn -/

def printed (session : Session) : List Print :=
  session.machine.store.host.printed

def wants (session : Session) : Bool :=
  session.machine.store.host.wantsDump

/-- The turn prints lines of the program, and then a view of the machine if `view` says so. -/
def Turn.Prints (turn : Turn) (view : Bool) : Prop :=
  ∃ lines : List String, turn.after.printed =
    (if view then [.dump turn.machine.text] else []) ++ lines.map Print.line ++ turn.before.printed

theorem turn_host (session : Session) :
    session.turn.machine.store.host.wantsDump = (session.wants || session.turn.asks) ∧
      ∃ lines : List String,
        session.turn.machine.store.host.printed = lines.map Print.line ++ session.printed := by
  have stepped := session.machine.step_watched
  generalize Machine.step Seat.watching.host session.machine.watched = result' at stepped
  obtain ⟨calls, sees⟩ := stepped.states.related
  have wish := sees.wish
  rw [calls] at wish
  simp only [turn, Turn.asks, wants, printed]
  exact ⟨wish, sees.lines⟩

theorem printDump_printed (m : Machine HostState) :
    (printDump ⟨m⟩).printed =
      (if m.store.host.wantsDump then [.dump m.text] else []) ++ m.store.host.printed := by
  unfold printDump
  cases m.store.host.wantsDump with
  | false => rfl
  | true =>
    let answered : HostState := { m.store.host with wantsDump := false }
    have same := m.text_withHost answered
    simp only [if_true, ← same]
    rfl

theorem printDump_wants (m : Machine HostState) : (printDump ⟨m⟩).wants = false := by
  unfold printDump
  cases wish : m.store.host.wantsDump with
  | false => exact wish
  | true => rfl

theorem turn_prints (session : Session) :
    session.turn.Prints (!session.turn.failed && (session.turn.asks || session.wants)) := by
  obtain ⟨wish, lines, shown⟩ := session.turn_host
  refine ⟨lines, ?_⟩
  have before : session.turn.before = session := rfl
  unfold Turn.after Turn.failed
  cases session.turn.result with
  | error e => exact shown
  | ok record =>
    simp only [Except.isOk, Except.toBool, Bool.not_true, Bool.not_false, Bool.true_and]
    rw [printDump_printed, shown, wish, Bool.or_comm, List.append_assoc, before]

/-- Only a step that fails leaves a wish behind. -/
theorem turn_wants (session : Session) :
    session.turn.after.wants =
      (session.turn.failed && (session.wants || session.turn.asks)) := by
  obtain ⟨wish, -⟩ := session.turn_host
  unfold Turn.after Turn.failed
  cases session.turn.result with
  | error e => exact wish
  | ok record => exact printDump_wants session.turn.machine

/-! ## Whole runs -/

theorem turns_cons (fuel : Nat) {session : Session} (busy : session.machine.isIdle = false) :
    ∃ rest, session.turns (fuel + 1) = session.turn :: rest ∧
      (session.turn.failed = true ∧ rest = [] ∨
        session.turn.failed = false ∧ rest = session.turn.after.turns fuel) := by
  rw [turns, if_neg (by simp [busy])]
  refine ⟨_, rfl, ?_⟩
  unfold Turn.failed
  cases session.turn.result with
  | error e => exact .inl ⟨rfl, rfl⟩
  | ok record => exact .inr ⟨rfl, rfl⟩

/-- A view is wanted at the start of a turn only if it is the first one: after every other turn but
the last one it has been printed. -/
theorem start_of_turn {fuel : Nat} {session : Session} {i : Nat} {turn : Turn}
    (found : (session.turns fuel)[i]? = some turn) :
    turn.before.turn = turn ∧ turn.before.wants = (i == 0 && session.wants) := by
  induction fuel generalizing session i with
  | zero => simp [turns] at found
  | succ fuel ih =>
    cases idle : session.machine.isIdle with
    | true => simp [turns_of_idle idle] at found
    | false =>
      obtain ⟨rest, turns, later⟩ := turns_cons fuel idle
      rw [turns] at found
      cases i with
      | zero =>
        cases found
        exact ⟨rfl, rfl⟩
      | succ i =>
        rw [List.getElem?_cons_succ] at found
        rcases later with ⟨failed, rfl⟩ | ⟨went, rfl⟩
        · cases found
        · obtain ⟨same, wants⟩ := ih found
          refine ⟨same, ?_⟩
          rw [wants, turn_wants, went]
          simp

theorem first_turn {fuel : Nat} {session : Session} {turn : Turn}
    (found : (session.turns fuel)[0]? = some turn) : turn.before = session := by
  cases fuel with
  | zero => cases found
  | succ fuel =>
    cases idle : session.machine.isIdle with
    | true => simp [turns_of_idle idle] at found
    | false =>
      obtain ⟨rest, turns, -⟩ := turns_cons fuel idle
      rw [turns] at found
      cases found
      rfl

theorem next_turn {fuel : Nat} {session : Session} {i : Nat} {turn next : Turn}
    (found : (session.turns fuel)[i]? = some turn)
    (found' : (session.turns fuel)[i + 1]? = some next) : next.before = turn.after := by
  induction fuel generalizing session i with
  | zero => simp [turns] at found
  | succ fuel ih =>
    cases idle : session.machine.isIdle with
    | true => simp [turns_of_idle idle] at found
    | false =>
      obtain ⟨rest, turns, later⟩ := turns_cons fuel idle
      rw [turns] at found found'
      rw [List.getElem?_cons_succ] at found'
      rcases later with ⟨failed, rfl⟩ | ⟨went, rfl⟩
      · cases found'
      · cases i with
        | zero =>
          cases found
          exact first_turn found'
        | succ i => exact ih found found'

theorem last_turn {fuel : Nat} {value : Value} {session after : Session}
    {result : Except EvalError Value} (busy : session.machine.isIdle = false)
    (driven : drive fuel value session = some (result, after)) :
    ∃ turn, (session.turns fuel).getLast? = some turn ∧ turn.after = after := by
  induction fuel generalizing session value with
  | zero =>
    rw [drive_zero busy] at driven
    cases driven
  | succ fuel ih =>
    rw [drive_succ fuel busy] at driven
    rw [turns_succ fuel busy]
    rcases stepped : session.machine.step Builtin.host with ⟨e | record, machine⟩
    · have here : session.turn.after = ⟨machine⟩ := by simp only [turn, Turn.after, stepped]
      rw [stepped] at driven
      cases driven
      exact ⟨session.turn, rfl, here⟩
    · have here : session.turn.after = printDump ⟨machine⟩ := by
        simp only [turn, Turn.after, stepped]
      rw [stepped] at driven
      simp only at driven ⊢
      cases idle : (printDump ⟨machine⟩).machine.isIdle with
      | true =>
        rw [turns_of_idle idle]
        rw [drive_of_idle idle] at driven
        cases driven
        exact ⟨session.turn, rfl, here⟩
      | false =>
        obtain ⟨turn, last, same⟩ := ih idle driven
        refine ⟨turn, ?_, same⟩
        rw [List.getLast?_cons, last]
        rfl

theorem begin_busy (session : Session) (code : Code) :
    (session.begin code).machine.isIdle = false := by
  obtain ⟨h, begun, -⟩ := begin_quiet session code
  rw [begun]
  simp [Machine.withHost, Machine.feed, Machine.isIdle]

theorem begin_wants (session : Session) (code : Code) :
    (session.begin code).wants = session.wants := by
  unfold begin
  split
  · rfl
  · rfl

theorem Ran.wants {session : Session} {owed : Bool} (ran : Ran session owed) :
    session.wants = owed := by
  induction ran with
  | start => rfl
  | showTrees before on wants => exact wants
  | takePrinted before wants => exact wants
  | change before store wish wants => exact wish.trans wants
  | refused before refused ran wants =>
    rw [Session.run, refused] at ran
    cases ran
    exact wants
  | @run session after owed before source code parsed fuel result ran wants =>
    rw [run_of_parsed parsed] at ran
    obtain ⟨driven, came, same⟩ := Option.map_eq_some_iff.mp ran
    cases same
    obtain ⟨turn, last, after⟩ := last_turn (begin_busy session code) came
    have found := last
    rw [List.getLast?_eq_getElem?] at found
    obtain ⟨same, start⟩ := start_of_turn found
    have ended := turn_wants turn.before
    rw [same, start, begin_wants, wants] at ended
    have some : 0 < ((session.begin code).turns fuel).length := by
      have bound := (List.getElem?_eq_some_iff.mp found).1
      omega
    have only : (((session.begin code).turns fuel).length - 1 == 0) =
        (((session.begin code).turns fuel).length == 1) := by
      rw [Bool.eq_iff_iff, beq_iff_eq, beq_iff_eq]
      omega
    rw [← after, ended, owes, last, Option.any_some, only, Bool.or_comm, Bool.and_comm owed]

/-- What a run of a unit prints, turn by turn, when a view may be owed before it. -/
structure Shows (session : Session) (owed : Bool) (source : String) (code : Code) (fuel : Nat) :
    Prop where
  /-- Before the first turn the tree of the unit is printed, if trees are. -/
  begins : (session.begin code).printed =
    (if session.machine.store.host.showsTrees then [.tree (session.machine.store.codeText code)]
      else []) ++ session.printed
  first (turn : Turn) (found : ((session.begin code).turns fuel)[0]? = some turn) :
    turn.before = session.begin code
  next (i : Nat) (turn next : Turn) (found : ((session.begin code).turns fuel)[i]? = some turn)
    (found' : ((session.begin code).turns fuel)[i + 1]? = some next) : next.before = turn.after
  last (result : Except RunError Value) (after : Session)
    (ran : session.run fuel source = some (result, after)) :
    ∃ turn, ((session.begin code).turns fuel).getLast? = some turn ∧ turn.after = after
  /-- A view is printed after a turn if its step has succeeded and has asked for it, or is the first
  one after a view was owed. -/
  prints (i : Nat) (turn : Turn) (found : ((session.begin code).turns fuel)[i]? = some turn) :
    turn.Prints (!turn.failed && (turn.asks || (owed && i == 0)))

/-- Whatever a session has been through, a run prints a view of the machine only after a step that
has succeeded, and only if the step has asked for it, or is the first one of the run and the last
step of the run before has asked for one and failed. -/
theorem shows_of_ran {session : Session} {owed : Bool} (ran : Ran session owed) {source : String}
    {code : Code} (parsed : parse source = .ok code) (fuel : Nat) :
    session.Shows owed source code fuel := by
  refine ⟨?_, fun turn found => first_turn found, fun i turn next found found' =>
    next_turn found found', fun result after ran => ?_, fun i turn found => ?_⟩
  · unfold begin
    split
    · rfl
    · rfl
  · rw [run_of_parsed parsed] at ran
    obtain ⟨driven, came, same⟩ := Option.map_eq_some_iff.mp ran
    cases same
    exact last_turn (begin_busy session code) came
  · obtain ⟨same, start⟩ := start_of_turn found
    have prints := turn_prints turn.before
    rw [same, start, begin_wants, ran.wants, Bool.and_comm (i == 0)] at prints
    exact prints

/-- The first step of a run that asks for no view is followed by one: the subtraction of the run
before has called `debug` to convert its left side and failed on its right side. -/
theorem shows_of_ran_owed :
    let source := "({to_double: debug}) - debug;"
    let code := Outline.ofRose (.node (.statement .unit) [.node (.statement .expression)
      [.node (.operation .subtract) [.node (.operation .grouping) [.node (.operation .objectLiteral)
        [.leaf (.literal (.string "to_double")),
          .node (.operation .grouping) [.leaf (.use "debug")]]], .leaf (.use "debug")]]])
    let next := Outline.ofRose
      (.node (.statement .unit) [.node (.statement .expression) [.leaf (.literal (.string "a"))]])
    parse source = .ok code ∧ parse "'a';" = .ok next ∧
      ∃ result session, Session.start.run 20 source = some (result, session) ∧ Ran session true ∧
        session.Shows true "'a';" next 1 ∧
        ∃ turn, (session.begin next).turns 1 = [turn] ∧ turn.asks = false ∧ turn.Prints true := by
  intro source code next
  have parsed : parse source = .ok code := by cbv
  have parsed' : parse "'a';" = .ok next := by cbv
  have owed : owes false ((Session.start.begin code).turns 20) = true := by decide +kernel
  have seen : ((Session.start.run 20 source).map fun ran =>
      ((ran.2.begin next).turns 1).map fun turn => (turn.failed, turn.asks)) =
        some [(false, false)] := by decide +kernel
  obtain ⟨⟨result, session⟩, came, turns⟩ := Option.map_eq_some_iff.mp seen
  obtain ⟨turn, only, marks⟩ := List.map_eq_singleton_iff.mp turns
  have ran : Ran session true := owed ▸ Ran.run .start parsed came
  have shows := shows_of_ran ran parsed' 1
  have prints := shows.prints 0 turn (by rw [only]; rfl)
  obtain ⟨failed, asks⟩ := Prod.mk.inj marks
  rw [failed, asks] at prints
  exact ⟨parsed, parsed', result, session, came, ran, shows, turn, only, asks, prints⟩

end Session

end StepScript
