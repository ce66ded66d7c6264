import StepScript.Proofs.Evaluator.Equivalence
import StepScript.Proofs.Lockstep.Extension

/-! Programs in several units.

The statements of a unit may as well be fed as two units, one after the other: what the second
one finds is what the first one has left in the store, and an error of the first one drops the
second one. Only a `return` outside of functions tells the two apart, since it ends its unit.
-/

set_option autoImplicit false

namespace StepScript

variable {σ : Type} {host : Host σ}

def Code.unit (statements : List (Rose Node)) : Code :=
  .ofRose (.node (.statement .unit) statements)

/-- Statements as the parser builds them, each of them in some unit. -/
def Parsed (statements : List (Rose Node)) : Prop :=
  ∀ tree ∈ statements, ∃ source code, parse source = .ok code ∧ tree ∈ code.toRose.children

theorem Parsed.shaped {statements : List (Rose Node)} (parsed : Parsed statements) :
    Shaped (.node (.statement .unit) statements) := by
  have each (tree : Rose Node) (member : tree ∈ statements) :
      Shaped tree ∧ tree.value.isInner = true := by
    obtain ⟨source, code, read, below⟩ := parsed tree member
    obtain ⟨unit, rfl, shaped, isUnit⟩ := rooted_parse read
    rw [Outline.toRose_ofRose] at below
    have fits := shaped.fits
    rw [isUnit] at fits
    exact ⟨shaped.child below, List.all_eq_true.mp fits _ (List.mem_map_of_mem below)⟩
  refine .node (List.all_eq_true.mpr fun value member => ?_) fun tree member =>
    (each tree member).1
  obtain ⟨tree, isPart, rfl⟩ := List.mem_map.mp member
  exact (each tree isPart).2

theorem Shaped.append {first rest : List (Rose Node)}
    (shaped : Shaped (.node (.statement .unit) first))
    (shaped' : Shaped (.node (.statement .unit) rest)) :
    Shaped (.node (.statement .unit) (first ++ rest)) := by
  have fits := shaped.fits
  have fits' := shaped'.fits
  refine .node ?_ fun tree member => ?_
  · simp_all [Node.fits, Statement.fits, Rose.value, Rose.children]
  · rcases List.mem_append.mp member with before | after
    · exact shaped.child before
    · exact shaped'.child after

/-! ## Sequences -/

theorem Eval.run_bind {α β : Type} (x : Eval σ α) (f : α → Eval σ β) (s : Store σ) :
    (x >>= f).run s = (x.run s).bind fun answer => (ExceptT.bindCont f answer.1) answer.2 :=
  rfl

namespace Evaluator

theorem sequence_append (eval : Rose Node → Eval σ Value) (value : Value)
    (first rest : List (Rose Node)) :
    sequence eval value (first ++ rest) =
      sequence eval value first >>= fun value => sequence eval value rest := by
  induction first generalizing value with
  | nil => simp [sequence]
  | cons tree first ih => simp [sequence, ih]

/-- The value before the first statement is not seen. -/
theorem sequence_of_ne_nil (eval : Rose Node → Eval σ Value) (value value' : Value)
    {statements : List (Rose Node)} (nonempty : statements ≠ []) :
    sequence eval value statements = sequence eval value' statements := by
  cases statements with
  | nil => exact absurd rfl nonempty
  | cons tree rest => rfl

end Evaluator

/-! ## What units come to -/

/-- What comes out at some time, and the store that the machine is left with. -/
def Behaviour.Comes (b : Behaviour σ) (result : Except EvalError Value) (s : Store σ) : Prop :=
  ∃ steps after, b.within steps = some (result, after) ∧ after.store = s

theorem Behaviour.Comes.unique {b : Behaviour σ} {result result' : Except EvalError Value}
    {s s' : Store σ} (comes : b.Comes result s) (comes' : b.Comes result' s') :
    result = result' ∧ s = s' := by
  obtain ⟨steps, after, stops, rfl⟩ := comes
  obtain ⟨steps', after', stops', rfl⟩ := comes'
  cases b.eq_of_within stops stops'
  exact ⟨rfl, rfl⟩

theorem Behaviour.Comes.of_follows {b b' : Behaviour σ} {result : Except EvalError Value}
    {s : Store σ} (follows : b.Follows b') (comes : b'.Comes result s) : b.Comes result s := by
  obtain ⟨delay, later⟩ := follows
  obtain ⟨steps, after, stops, stored⟩ := comes
  exact ⟨delay + steps, after, (later steps).trans stops, stored⟩

theorem Simulates.of_not_returned {α : Type} {k : Nat} {x : Eval σ α} {s : Store σ}
    {b : Behaviour σ} {K : α → Store σ → Behaviour σ} {R R' : Value → Store σ → Behaviour σ}
    (simulates : Simulates k x s b K R)
    (straight : ∀ value s', x.run s ≠ some (.error (.returned value), s')) :
    Simulates k x s b K R' := by
  unfold Simulates at *
  rcases ran : x.run s with _ | ⟨(e | value) | a, s'⟩
  · rwa [ran] at simulates
  · rwa [ran] at simulates
  · exact absurd ran (straight value s')
  · rwa [ran] at simulates

theorem Behaviour.Comes.of_simulates {b b' : Behaviour σ} {s t : Store σ}
    {K : Value → Store σ → Behaviour σ} {result : Except EvalError Value}
    (gives : ∀ value s, (K value s).Comes (.ok value) s)
    (both : ∀ k, ∃ x : Eval σ Value, Simulates k x s b K K ∧ Simulates k x s b' K K)
    (comes : b.Comes result t) : b'.Comes result t := by
  obtain ⟨steps, after, stops, rfl⟩ := comes
  obtain ⟨x, first, second⟩ := both steps
  unfold Simulates at first second
  -- What the evaluation comes to is what both come to, and `b` comes to one thing only.
  have same {result' : Except EvalError Value} {s' : Store σ} (comes : b.Comes result' s')
      (comes' : b'.Comes result' s') : b'.Comes result after.store := by
    obtain ⟨rfl, rfl⟩ := comes.unique ⟨steps, after, stops, rfl⟩
    exact comes'
  generalize x.run s = answer at first second
  rcases answer with _ | ⟨(e | value) | value, s'⟩
  · cases stops.symm.trans first
  · exact same first second
  · exact same (.of_follows first.2 (gives value s')) (.of_follows second.2 (gives value s'))
  · exact same (.of_follows first.2 (gives value s')) (.of_follows second.2 (gives value s'))

namespace Machine

def queue (m : Machine σ) (units : List Code) : Machine σ :=
  { m with pending := units }

def left (host : Host σ) (m : Machine σ) (value : Value) (s : Store σ) : Behaviour σ :=
  ({ m with store := s, last := value } : Machine σ).behaviour host

theorem queue_gives (host : Host σ) {m : Machine σ} (idle : m.isIdle = true) (value : Value)
    (s : Store σ) : ((m.queue []).left host value s).Comes (.ok value) s := by
  have rests : ({ m.queue [] with store := s, last := value } : Machine σ).isIdle = true := by
    simp_all [isIdle, queue]
  exact ⟨0, _, execute_of_idle host rests 0, rfl⟩

theorem feed_of_idle {m : Machine σ} (idle : m.isIdle = true) (unit : Code) :
    m.feed unit = m.queue [unit] := by
  have none : m.pending = [] := by simp_all [isIdle]
  rw [feed, queue, none, List.nil_append]

/-- A `break` is not implemented. -/
theorem comes_of_break {m : Machine σ} {frame : Frame} {below : List Frame}
    (stack : m.stack = frame :: below)
    (found : frame.code.get? frame.current = some (.statement .breakOut)) :
    (m.behaviour host).Comes (.error (.unimplemented (.statement .breakOut))) m.store := by
  have busy : m.isIdle = false := by simp [isIdle, stack]
  have handled : (Handler.node host frame.current).run ⟨frame, m.store⟩ =
      (.error (.unimplemented (.statement .breakOut)), ⟨frame, m.store⟩) := by
    show (Handler.node host frame.current).exec _ = _
    rw [Handler.node, Handler.exec_bind, Handler.exec_code, Handler.andThen_ok, found]
    rfl
  have stepped : step host m =
      (.error (.unimplemented (.statement .breakOut)),
        ({ m with stack := below } : Machine σ).abort) := by
    rw [step, rawStep_of_stack stack, stepFrame, handled]
  refine ⟨1, ({ m with stack := below } : Machine σ).abort, ?_, rfl⟩
  show execute host 1 m = _
  rw [execute_succ 0 busy, stepped]

section Units

variable (keeps : host.Keeps) {m : Machine σ} (idle : m.isIdle = true) (bodies : m.store.Bodies)
include keeps idle bodies

/-- A unit does what the evaluator does, also where other units wait behind it. -/
theorem simulates_queue {statements : List (Rose Node)}
    (shaped : Shaped (.node (.statement .unit) statements)) (waiting : List Code) (fuel : Nat) :
    Simulates (fuel + 1)
      (Evaluator.sequence (Evaluator.eval host m.depthLimit fuel ⟨m.global, 1⟩) .undefined
        statements) m.store ((m.queue (.unit statements :: waiting)).behaviour host)
      ((m.queue waiting).left host) ((m.queue waiting).left host) := by
  obtain ⟨store, global, depthLimit, pending, stack, last⟩ := m
  obtain ⟨rfl, rfl⟩ : stack = [] ∧ pending = [] := by simpa [isIdle] using idle
  rw [← behaviour_started]
  exact simulates_code (c := ⟨.topLevel, global, .node (.statement .unit) statements, [], global,
    depthLimit, waiting, last⟩) (agrees_all keeps fuel) shaped (.inl rfl) store bodies

/-- Where the run of a unit executes no `return`, the evaluation does not either: put behind the
statements, a `break` would be reached, and it would fail. -/
theorem not_returned_of_straight {statements : List (Rose Node)}
    (shaped : Shaped (.node (.statement .unit) statements))
    (straight : ¬ Returns host (m.feed (.unit statements))) (fuel : Nat) (value : Value)
    (s : Store σ) :
    (Evaluator.sequence (Evaluator.eval host m.depthLimit fuel ⟨m.global, 1⟩) .undefined
      statements).run m.store ≠ some (.error (.returned value), s) := by
  intro returned
  have ends := simulates_queue keeps idle bodies shaped [] fuel
  unfold Simulates at ends
  rw [returned] at ends
  obtain ⟨steps, after, ran, -⟩ := Behaviour.Comes.of_follows ends.2 (queue_gives host idle value s)
  obtain ⟨n, follows, frame, stack, code, current⟩ :=
    reaches_of_execute (.leaf (.statement .breakOut)) keeps idle bodies shaped rfl
      (by rw [feed_of_idle idle]; exact ran) straight
  have found : frame.code.get? frame.current = some (.statement .breakOut) := by
    rw [code, current]
    exact Outline.get?_size_addLast _ _
  have fails := Behaviour.Comes.of_follows follows (comes_of_break stack found)
  -- The evaluation of the longer unit returns as well, so its run comes to a value.
  have longer : Shaped (.node (.statement .unit) (statements ++ [.leaf (.statement .breakOut)])) :=
    shaped.append (.node rfl (List.forall_mem_singleton.mpr (.leaf rfl)))
  have ends' := simulates_queue keeps idle bodies longer [] fuel
  unfold Simulates at ends'
  rw [Evaluator.sequence_append, Eval.run_bind, returned] at ends'
  have gives := Behaviour.Comes.of_follows ends'.2 (queue_gives host idle value s)
  rw [← feed_of_idle idle] at gives
  cases (fails.unique gives).1

/-- Two units do what the evaluator does with the statements of both. -/
theorem simulates_two_units {first rest : List (Rose Node)}
    (shaped : Shaped (.node (.statement .unit) first))
    (shaped' : Shaped (.node (.statement .unit) rest)) (nonempty : rest ≠ [])
    (straight : ¬ Returns host (m.feed (.unit first))) (fuel : Nat) :
    Simulates (fuel + 1)
      (Evaluator.sequence (Evaluator.eval host m.depthLimit fuel ⟨m.global, 1⟩) .undefined
        (first ++ rest)) m.store ((m.queue [.unit first, .unit rest]).behaviour host)
      ((m.queue []).left host) ((m.queue []).left host) := by
  rw [Evaluator.sequence_append]
  refine ((simulates_queue keeps idle bodies shaped [.unit rest] fuel).of_not_returned
    (not_returned_of_straight keeps idle bodies shaped straight fuel)).bind
    fun value s bodies' => ?_
  rw [Evaluator.sequence_of_ne_nil _ value .undefined nonempty]
  exact simulates_queue (m := { m with store := s, last := value }) keeps idle bodies' shaped' []
    fuel

/-- What one unit comes to, two units come to, and the other way round. -/
theorem comes_split_iff {first rest : List (Rose Node)} (parsed : Parsed (first ++ rest))
    (nonempty : rest ≠ []) (straight : ¬ Returns host (m.feed (.unit first)))
    (result : Except EvalError Value) (s : Store σ) :
    ((m.feed (.unit (first ++ rest))).behaviour host).Comes result s ↔
      (((m.feed (.unit first)).feed (.unit rest)).behaviour host).Comes result s := by
  have shaped : Shaped (.node (.statement .unit) first) :=
    Parsed.shaped fun tree member => parsed tree (List.mem_append_left rest member)
  have shaped' : Shaped (.node (.statement .unit) rest) :=
    Parsed.shaped fun tree member => parsed tree (List.mem_append_right first member)
  have fed : (m.feed (.unit first)).feed (.unit rest) = m.queue [.unit first, .unit rest] := by
    rw [feed_of_idle idle]
    rfl
  rw [feed_of_idle idle, fed]
  have both (fuel : Nat) :=
    And.intro (simulates_queue keeps idle bodies parsed.shaped [] fuel)
      (simulates_two_units keeps idle bodies shaped shaped' nonempty straight fuel)
  constructor
  · exact fun comes => comes.of_simulates (queue_gives host idle) fun fuel =>
      ⟨_, (both fuel).1.of_le (Nat.le_succ fuel), (both fuel).2.of_le (Nat.le_succ fuel)⟩
  · exact fun comes => comes.of_simulates (queue_gives host idle) fun fuel =>
      ⟨_, (both fuel).2.of_le (Nat.le_succ fuel), (both fuel).1.of_le (Nat.le_succ fuel)⟩

end Units

end Machine

theorem Host.alike_recorded (host : Host σ) :
    host.Alike (fun h h' => h'.1 = h) host.recorded := by
  intro f args s s' states
  cases states with
  | @withHost h same =>
    obtain ⟨own, calls⟩ := h
    cases same
    show Paired _ _ ((host.call f args).run s)
      (((host.call f args).run s).1,
        ((host.call f args).run s).2.withHost (((host.call f args).run s).2.host,
          calls ++ [(f, args)]))
    rcases (host.call f args).run s with ⟨e | value, after⟩
    · exact ⟨rfl, .withHost rfl⟩
    · exact ⟨rfl, .withHost rfl⟩

namespace Machine

/-- Where no `return` outside of functions is executed in the first statements, it makes no
difference whether the others are fed with them in one unit or after them in another: both ways the
machine comes to the same value or error and to the same store, and it calls the same functions of
the host. -/
theorem execute_split_iff (keeps : host.Keeps) {m : Machine σ} (idle : m.isIdle = true)
    (bodies : m.store.Bodies) {first rest : List (Rose Node)} (parsed : Parsed (first ++ rest))
    (nonempty : rest ≠ []) (straight : ¬ Returns host (m.feed (.unit first))) :
    (∀ result s,
      (∃ steps after, execute host steps (m.feed (.unit (first ++ rest))) = some (result, after) ∧
          after.store = s) ↔
        ∃ steps after,
          execute host steps ((m.feed (.unit first)).feed (.unit rest)) = some (result, after) ∧
            after.store = s) ∧
    ∀ result s,
      (∃ steps after, execute host.recorded steps (m.recorded.feed (.unit (first ++ rest))) =
          some (result, after) ∧ after.store = s) ↔
        ∃ steps after,
          execute host.recorded steps ((m.recorded.feed (.unit first)).feed (.unit rest)) =
            some (result, after) ∧ after.store = s := by
  have straight' : ¬ Returns host.recorded (m.recorded.feed (.unit first)) := fun returns =>
    straight (.of_alike host.alike_recorded
      (.withHost (m := m.feed (.unit first)) (h := (m.store.host, [])) rfl) returns)
  exact ⟨comes_split_iff keeps idle bodies parsed nonempty straight,
    comes_split_iff (m := m.recorded) keeps.recorded idle (bodies.of_closures rfl) parsed
      nonempty straight'⟩

/-- The function is declared in one unit and called in the other. -/
theorem execute_split_iff_declaration :
    let host : Host Unit := ⟨fun _ _ => pure .undefined⟩
    let declaration : Rose Node := .node (.statement .functionDeclaration)
      [.node (.operation .functionLiteral) [.leaf (.literal (.string "g")),
        .node (.statement .block) [.node (.statement .expression)
          [.node (.operation .call) [.leaf (.use "f"), .leaf (.literal (.string "a"))]]]]]
    let call : Rose Node := .node (.statement .expression)
      [.node (.operation .call) [.leaf (.use "g")]]
    let m := Machine.start ⟨#[⟨.null, [("f", .function (.native 0))]⟩], #[], #["f"], ()⟩
      (.object 0) 512
    parse "function g() \x7b f('a'); \x7d g();" = .ok (.unit [declaration, call]) ∧
    ¬ Returns host (m.feed (.unit [declaration])) ∧
    ∃ steps after, execute host.recorded steps
        ((m.recorded.feed (.unit [declaration])).feed (.unit [call])) =
          some (.ok .undefined, after) ∧
      after.store.host.2 = [(0, [.string "a"])] := by
  intro host declaration call m
  have keeps : host.Keeps := fun _ _ => .pure _
  have bodies : m.store.Bodies := by
    intro closure member
    simp [m, Machine.start] at member
  have read : parse "function g() \x7b f('a'); \x7d g();" = .ok (.unit [declaration, call]) := by
    cbv
  have parsed : Parsed [declaration, call] := fun tree member => ⟨_, _, read, by
    rw [Code.unit, Outline.toRose_ofRose]
    exact member⟩
  have alone : parse "function g() \x7b f('a'); \x7d" = .ok (.unit [declaration]) := by cbv
  have straight : ¬ Returns host (m.feed (.unit [declaration])) := by
    intro returns
    have orderly := orderly_of_reachable keeps (.feed (.start bodies (.object 0) 512) alone)
    obtain ⟨code, member, n, found⟩ := returns.exists_return keeps orderly
    obtain rfl : code = .unit [declaration] := List.mem_singleton.mp member
    rcases n with _ | _ | _ | _ | _ | _ | _ | _ | _ | n
    all_goals cases found
  have whole : ∃ steps after,
      execute host.recorded steps (m.recorded.feed (.unit ([declaration] ++ [call]))) =
        some (.ok .undefined, after) ∧ after.store.host.2 = [(0, [.string "a"])] :=
    ⟨40, _, by cbv, rfl⟩
  obtain ⟨steps, after, ran, calls⟩ := whole
  have split := execute_split_iff keeps rfl bodies
    (show Parsed ([declaration] ++ [call]) from parsed) (List.cons_ne_nil call []) straight
  obtain ⟨steps', after', ran', same⟩ := (split.2 _ _).mp ⟨steps, after, ran, rfl⟩
  exact ⟨read, straight, steps', after', ran', by rw [same, calls]⟩

end Machine

end StepScript
