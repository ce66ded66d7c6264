import StepScript.Proofs.Evaluator.Equivalence
import StepScript.Proofs.Stack.Updates

/-! The order in which two operands are converted.

Hooks of the program run before the operator is applied, and those of the host run when it is
applied. Among themselves either kind goes from left to right. So an operand on the right with
a hook of the program is converted before one on the left that has none, and everywhere else the
left operand comes first.
-/

set_option autoImplicit false

namespace StepScript

variable {σ : Type} {host : Host σ}

namespace Store

/-- To convert the value to a number runs nothing, and it cannot fail. -/
def Inert (s : Store σ) (value : Value) : Prop :=
  s.hook? value Conversion.toNumber.hook = none ∧ ∀ f, value ≠ .function f

def Unscripted (s : Store σ) (value : Value) : Prop :=
  s.scriptHook? value Conversion.toNumber.hook = none

end Store

/-! ## Operators on numbers -/

namespace Host

theorem compareValues_eq (host : Host σ) {left right : Value}
    (numeric : (left.isString && right.isString) = false) :
    host.compareValues left right =
      host.toNumbers left right >>= fun pair => pure (compareNumbers pair.1 pair.2) := by
  unfold compareValues
  split
  · cases numeric
  · rfl

/-- Where an operator works on numbers, it converts both operands, and then it leaves the store
alone. -/
theorem exists_binary_eq (host : Host σ) {op : BinaryOp} {left right : Value}
    (numeric : op.isNumericOn left right = true) :
    ∃ combine : Float × Float → Value,
      host.binary op left right =
        host.toNumbers left right >>= fun pair => pure (combine pair) := by
  have ordered (f : Option Ordering → Bool)
      (neither : (!(left.isString && right.isString)) = true) :
      (host.compareValues left right >>= fun order => pure (Value.boolean (f order))) =
        host.toNumbers left right >>= fun pair =>
          pure (.boolean (f (compareNumbers pair.1 pair.2))) := by
    rw [compareValues_eq host (by rwa [Bool.not_eq_true'] at neither), bind_assoc]
    rfl
  cases op with
  | add =>
    refine ⟨fun pair => .number (pair.1 + pair.2), ?_⟩
    have neither : ¬ (left.isString || right.isString) = true := by
      simpa [BinaryOp.isNumericOn] using numeric
    rw [binary, if_neg neither]
  | subtract => exact ⟨fun pair => .number (pair.1 - pair.2), rfl⟩
  | multiply => exact ⟨fun pair => .number (pair.1 * pair.2), rfl⟩
  | divide => exact ⟨fun pair => .number (pair.1 / pair.2), rfl⟩
  | remainder => exact ⟨fun pair => .number (Number.remainder pair.1 pair.2), rfl⟩
  | less => exact ⟨_, ordered (· == some .lt) numeric⟩
  | lessEqual =>
    exact ⟨_, ordered (fun order => order == some .lt || order == some .eq) numeric⟩
  | greater => exact ⟨_, ordered (· == some .gt) numeric⟩
  | greaterEqual =>
    exact ⟨_, ordered (fun order => order == some .gt || order == some .eq) numeric⟩
  | equal | notEqual | strictEqual | strictNotEqual => cases numeric

/-- Such an operator is the conversion of the left operand, then that of the right one, and then a
function. -/
theorem exists_run_binary_eq (host : Host σ) {op : BinaryOp} {x y : Value}
    (numeric : op.isNumericOn x y = true) (s : Store σ) :
    ∃ combine : Float × Float → Value,
      (host.binary op x y).run s = match (host.toNumber x).run s with
        | (.ok a, s') => match (host.toNumber y).run s' with
          | (.ok b, s'') => (.ok (combine (a, b)), s'')
          | (.error e, s'') => (.error e, s'')
        | (.error e, s') => (.error e, s') := by
  obtain ⟨combine, applies⟩ := host.exists_binary_eq numeric
  refine ⟨combine, ?_⟩
  rw [applies, Host.toNumbers, bind_assoc, Act.run_bind]
  rcases (host.toNumber x).run s with ⟨e | a, s'⟩
  · rfl
  · simp only [bind_assoc, Act.run_bind]
    rcases (host.toNumber y).run s' with ⟨e | b, s''⟩
    · rfl
    · rfl

end Host

namespace Fold

/-- The right operand is handed to a hook only where the left one has been converted by one, or has
none. -/
theorem left_of_next? {op : BinaryOp} {left right : Nat} (differ : left ≠ right)
    {value : Nat → Value} {converted : NodeMap Value} {s : Store σ} {conversion : Conversion}
    {hook : Closure}
    (next : (binary op left right).next? value converted s =
      some (.convert right conversion hook)) :
    (converted.find? left).isSome = true ∨ s.Unscripted (value left) := by
  obtain ⟨wanted, converts, found⟩ := Option.bind_eq_some_iff.mp next
  obtain rfl : Conversion.toNumber = wanted :=
    Option.some.inj (Option.ite_none_right_eq_some.mp converts).2
  obtain ⟨⟨operand, id⟩, pending, same⟩ := Option.map_eq_some_iff.mp found
  cases same
  simp only [operands, List.map_cons, List.map_nil, Handler.pendingHook?] at pending
  split at pending
  case isTrue settled => exact .inl settled
  case isFalse =>
    split at pending
    case h_1 id' hooked =>
      cases pending
      exact absurd rfl differ
    case h_2 plain => exact .inr plain

end Fold

namespace Machine

/-- The operands are turned into numbers on the spot, `x` before `y`, and then the node finishes.
Where a conversion fails, so does the step, and nothing runs after that conversion. `keep` is what
becomes of the result. -/
def InPlace (host : Host σ) (m : Machine σ) (op : BinaryOp) (x y : Value)
    (keep : Store σ → Value → Store σ) (frame : Frame) (below : List Frame) : Prop :=
  match (host.toNumber x).run m.store with
  | (.error e, s) => (step host m).1 = .error (.ofValueError e) ∧ (step host m).2.store = s
  | (.ok _, s) =>
    match (host.toNumber y).run s with
    | (.error e, s') => (step host m).1 = .error (.ofValueError e) ∧ (step host m).2.store = s'
    | (.ok _, s') => ∃ result, (host.binary op x y).run m.store = (.ok result, s') ∧
      Goes frame below (keep s' result) (step host m) (.finish result)

/-- How the operands `left` and `right` of the running node are converted after the hooks `runs`.
`value` is what they are, and `keep?` what becomes of the result, if there is a place for it. -/
structure LeftFirst (excused : Store σ → Value → Prop) (host : Host σ) (m : Machine σ)
    (op : BinaryOp) (left right : Nat) (value : Frame → Store σ → Nat → Value)
    (keep? : Option (Store σ → Value → Store σ)) (frame : Frame) (below : List Frame)
    (runs : List (HookRun σ)) : Prop where
  protocol : (Fold.binary op left right).Protocol host value m frame below runs
  /-- A hook of the program starts for the right operand when one has run for the left operand, or
  when this is excused. -/
  handed : ∀ conversion hook, m.Asks host right conversion hook →
    left ∈ runs.map (·.operand) ∨ excused m.store (value frame m.store left)
  /-- Hooks of the host, and failures to convert, come when no hook of the program is left. -/
  inPlace : m.AsksNothing host →
    op.isNumericOn (HookRun.used runs (value frame m.store) left)
      (HookRun.used runs (value frame m.store) right) = true →
    match keep? with
    | some keep => m.InPlace host op (HookRun.used runs (value frame m.store) left)
      (HookRun.used runs (value frame m.store) right) keep frame below
    | none => ∃ fault, (step host m).1 = .error (.uncaught fault) ∧
      (step host m).2.store = m.store

/-- In a machine two operands are converted to numbers from left to right, up to what is excused. -/
structure ConvertsInOrder (excused : Store σ → Value → Prop) (host : Host σ) (m : Machine σ) :
    Prop where
  operators : ∀ frame below o op, m.stack = frame :: below →
    frame.code.get? frame.current = some (.operation o) → o.binary? = some op →
    ∃ left right, frame.code.children frame.current = [left, right] ∧
      (∀ operand conversion hook, m.Asks host operand conversion hook →
        frame.Ready (.binary op left right)) ∧
      (frame.Ready (.binary op left right) → ∃ m₀ runs, Driven host m₀ ∧
        m₀.stack = frame.atFirst (.binary op left right) :: below ∧ Settling host m₀ runs m ∧
        m.LeftFirst excused host op left right (fun frame _ => frame.peek) (some fun s _ => s)
          frame below runs)
  /-- The old value of the slot is on the left. -/
  updates : ∀ frame below o u op, m.stack = frame :: below →
    frame.code.get? frame.current = some (.operation o) → o.update? = some u →
    u.binary? = some op →
    ∃ target operand, frame.code.children frame.current = [target, operand] ∧
      (∀ k conversion hook, m.Asks host k conversion hook →
        frame.Ready (.binary op frame.current operand)) ∧
      (frame.Ready (.binary op frame.current operand) → ∃ m₀ runs, Driven host m₀ ∧
        m₀.stack = frame.atFirst (.binary op frame.current operand) :: below ∧
        Settling host m₀ runs m ∧
        m.LeftFirst excused host op frame.current operand (Frame.combined target)
          ((frame.slot? target m.store).map Slot.write) frame below runs)
  /-- A conversion that fails is the end of the unit, so nothing is converted after it. -/
  failing : ∀ e, (step host m).1 = .error e → (step host m).2.isIdle = true

/-! ## Conversions in place -/

section Step

variable {m : Machine σ} {frame frame' : Frame} {below : List Frame} (poised : frame.Poised)
  (stack : m.stack = frame :: below)

include stack in
theorem store_of_exec_error {e : EvalError} {l : Local σ}
    (exec : (Handler.node host frame.current).exec ⟨frame, m.store⟩ = (.error e, l)) :
    (step host m).1 = .error e ∧ (step host m).2.store = l.store := by
  rw [Handler.exec] at exec
  have raw : rawStep host m = (.error e, { m with store := l.store, stack := below }) := by
    simp only [rawStep, stack, stepFrame, exec]
  rw [step, raw]
  exact ⟨rfl, rfl⟩

include poised stack in
theorem inPlace_of_exec {op : BinaryOp} {x y : Value} {keep : Store σ → Value → Store σ}
    (inner : frame.current ≠ 0) (same : frame.Same frame')
    (here : frame'.current = frame.current) (numeric : op.isNumericOn x y = true)
    (exec : (Handler.node host frame.current).exec ⟨frame, m.store⟩ =
      match (host.binary op x y).run m.store with
      | (.ok result, s) => (.ok (.finish result), ⟨frame', keep s result⟩)
      | (.error e, s) => (.error (.ofValueError e), ⟨frame', s⟩)) :
    m.InPlace host op x y keep frame below := by
  obtain ⟨combine, ran⟩ := host.exists_run_binary_eq numeric m.store
  unfold InPlace
  rcases first : (host.toNumber x).run m.store with ⟨e | a, s⟩
  · simp only [first] at ran
    rw [ran] at exec
    exact store_of_exec_error stack exec
  · simp only [first] at ran
    simp only
    rcases second : (host.toNumber y).run s with ⟨e | b, s'⟩
    · simp only [second] at ran
      rw [ran] at exec
      exact store_of_exec_error stack exec
    · simp only [second] at ran
      rw [ran] at exec
      exact ⟨_, ran, goes_of_finish poised stack inner same here exec⟩

end Step

section Fold

variable {m : Machine σ} {frame : Frame} {below : List Frame} {op : BinaryOp} {left right : Nat}
  {value : Frame → Store σ → Nat → Value} {runs : List (HookRun σ)} (poised : frame.Poised)
  (stack : m.stack = frame :: below)
include poised stack

/-- Hooks of the program run from left to right. -/
theorem handed_of_protocol
    (settles : Settles host frame.code frame.current (· = right) (.binary op left right) value)
    (differ : left ≠ right)
    (protocol : (Fold.binary op left right).Protocol host value m frame below runs)
    {conversion : Conversion} {hook : Closure} (asks : m.Asks host right conversion hook) :
    left ∈ runs.map (·.operand) ∨ m.store.Unscripted (value frame m.store left) := by
  obtain ⟨-, next⟩ := ready_of_asks poised stack settles asks
  refine (Fold.left_of_next? differ next).imp_left fun settled => ?_
  by_contra fresh
  rw [protocol.kept, HookRun.coerced?_eq_none.mpr fresh] at settled
  cases settled

theorem inPlace_of_folds (folds : Folds frame.code frame.current (.binary op left right))
    (ready : frame.Ready (.binary op left right)) (nothing : m.AsksNothing host)
    (protocol : (Fold.binary op left right).Protocol host (fun frame _ => frame.peek) m frame below
      runs)
    (numeric : op.isNumericOn (HookRun.used runs frame.peek left)
      (HookRun.used runs frame.peek right) = true) :
    m.InPlace host op (HookRun.used runs frame.peek left) (HookRun.used runs frame.peek right)
      (fun s _ => s) frame below := by
  have done := next?_of_asks_nothing poised stack folds.settles ready nothing
  have used : frame.used = HookRun.used runs frame.peek := by
    funext operand
    rw [Frame.used, protocol.kept, HookRun.used]
  obtain ⟨same, here⟩ := (Fold.binary op left right).taken_same frame
  obtain ⟨root, rooted, which⟩ := poised.rooted
  refine inPlace_of_exec poised stack (folds.below rooted which) same here numeric ?_
  rw [exec_fold poised m.store folds ready, Fold.exec]
  simp only [done, Fold.apply, Fold.outcome, Act.run_bind, used]
  rcases (host.binary op (HookRun.used runs frame.peek left)
    (HookRun.used runs frame.peek right)).run m.store with ⟨e | result, s⟩
  · rfl
  · rfl

omit poised stack in
theorem inPlace_of_updates {target operand : Nat} (poised : frame.Poised)
    (stack : m.stack = frame :: below)
    (updates : Updates frame.code frame.current op target operand)
    (ready : frame.Ready (.binary op frame.current operand)) (nothing : m.AsksNothing host)
    (protocol : (Fold.binary op frame.current operand).Protocol host (Frame.combined target) m frame
      below runs)
    (numeric : op.isNumericOn (HookRun.used runs (frame.combined target m.store) frame.current)
      (HookRun.used runs (frame.combined target m.store) operand) = true) :
    match (frame.slot? target m.store).map Slot.write with
    | some keep => m.InPlace host op
      (HookRun.used runs (frame.combined target m.store) frame.current)
      (HookRun.used runs (frame.combined target m.store) operand) keep frame below
    | none => ∃ fault, (step host m).1 = .error (.uncaught fault) ∧
      (step host m).2.store = m.store := by
  have done := next?_of_asks_nothing poised stack updates.settles ready nothing
  have settled (k : Nat) :
      frame.settled target m.store k = HookRun.used runs (frame.combined target m.store) k := by
    rw [Frame.settled, protocol.kept, HookRun.used]
  obtain ⟨root, rooted, -⟩ := poised.rooted
  obtain ⟨u, binary, exec⟩ := updates.exec_ready poised host ready m.store
  obtain ⟨frame', same, here, written⟩ := updates.exec_applyUpdate poised host binary m.store
  simp only [done, settled] at exec written
  cases which : frame.slot? target m.store with
  | some slot =>
    simp only [which] at written
    rw [written] at exec
    exact inPlace_of_exec poised stack (updates.inner rooted) same here numeric exec
  | none =>
    simp only [which] at written
    obtain ⟨fault, -, failed⟩ := written
    rw [failed] at exec
    exact ⟨fault, store_of_exec_error stack exec⟩

end Fold

end Machine

/-! ## A hook of the host beside one of the program

`a` has the hook `h` of the host, and `b` has one of the program, which calls the function `p` of
the host. -/

namespace Mixed

def natives : Host Unit :=
  ⟨fun _ _ => pure .undefined⟩

def hook : Rose Node :=
  .node (.statement .block) [.node (.statement .expression)
    [.node (.operation .call) [.leaf (.use "p"), .leaf (.literal (.string "b"))]]]

def store : Store Unit :=
  ⟨#[⟨.null, [("p", .function (.native 0)), ("a", .object 1), ("b", .object 2)]⟩,
      ⟨.null, [("to_double", .function (.native 1))]⟩,
      ⟨.null, [("to_double", .function (.script 0))]⟩],
    #[⟨none, [], .ofRose hook, .object 0⟩], #["p", "h"], ()⟩

def code : Code :=
  .ofRose (.node (.statement .unit) [.node (.statement .expression)
    [.node (.operation .subtract) [.leaf (.use "a"), .leaf (.use "b")]]])

def begun : Machine Unit :=
  (Machine.start store (.object 0) 512).feed code

def frame : Frame :=
  ⟨.topLevel, .object 0, code, 2, 4,
    (NodeMap.empty.insert 3 (.object 1)).insert 4 (.object 2), .empty⟩

def ready : Machine Unit :=
  { begun with pending := [], stack := [frame] }

theorem keeps : natives.Keeps :=
  fun _ _ => .pure _

theorem bodies : store.Bodies := by
  have call : Shaped
      (.node (.operation .call) [.leaf (.use "p"), .leaf (.literal (.string "b"))]) :=
    .node rfl (List.forall_mem_cons.mpr ⟨.leaf rfl, List.forall_mem_singleton.mpr (.leaf rfl)⟩)
  have shaped : Shaped hook :=
    .node rfl (List.forall_mem_singleton.mpr (.node rfl (List.forall_mem_singleton.mpr call)))
  intro closure member
  rw [show store.closures = #[_] from rfl, List.mem_toArray, List.mem_singleton] at member
  subst member
  exact ⟨hook, rfl, shaped, rfl⟩

theorem parsed : parse "a - b;" = .ok code := by
  cbv

theorem driven : Machine.Driven natives ready := by
  have steps : ready = Nat.repeat (fun m => (Machine.step natives m).2) 6 begun := by cbv
  rw [steps]
  exact .steps (.turn (.start bodies _ 512) (.feed _ parsed)) 6

end Mixed

namespace Machine

/-- Two operands are converted from left to right, except that an operand on the right with a hook
of the program is converted before one on the left that has none. -/
theorem convertsInOrder_of_driven (keeps : host.Keeps) {m : Machine σ} (driven : Driven host m) :
    m.ConvertsInOrder Store.Unscripted host := by
  have orderly := orderly_of_reachable keeps driven.reachable
  have poised {frame : Frame} {below : List Frame} (stack : m.stack = frame :: below) :
      frame.Poised := (orderly.tidy frame (by rw [stack]; exact List.mem_cons_self)).poised
  refine ⟨fun frame below o op stack found binary => ?_,
    fun frame below o u op stack found update binary => ?_, fun e failed => ?_⟩
  · have poised := poised stack
    obtain ⟨root, rooted, -⟩ := poised.rooted
    obtain ⟨left, right, parts⟩ :
        ∃ left right, frame.code.children frame.current = [left, right] := by
      obtain ⟨node, parts, site⟩ := rooted.site poised.inside
      cases site.get?.symm.trans found
      refine List.length_eq_two.mp ?_
      rw [← Operation.length_of_fits site.fits (Operation.arity?_of_binary? binary)]
      simpa using congrArg List.length site.children
    have folds : Folds frame.code frame.current (.binary op left right) :=
      .binary found binary parts
    have differ : left ≠ right := by
      have increase := rooted.children_increase frame.current
      rw [parts] at increase
      exact Nat.ne_of_lt (List.rel_of_pairwise_cons increase List.mem_cons_self)
    refine ⟨left, right, parts,
      fun _ _ _ asks => (ready_of_asks poised stack folds.settles asks).1, fun ready => ?_⟩
    obtain ⟨m₀, runs, driven₀, began, settling, protocol⟩ :=
      driven.protocol keeps stack folds.settles ready
    exact ⟨m₀, runs, driven₀, began, settling, protocol,
      fun _ _ asks => handed_of_protocol poised stack folds.settles differ protocol asks,
      fun nothing numeric => inPlace_of_folds poised stack folds ready nothing protocol numeric⟩
  · have poised := poised stack
    obtain ⟨root, rooted, -⟩ := poised.rooted
    obtain ⟨target, operand, updates⟩ : ∃ target operand,
        Updates frame.code frame.current op target operand := by
      obtain ⟨node, parts, site⟩ := rooted.site poised.inside
      cases site.get?.symm.trans found
      exact site.exists_updates update binary
    obtain ⟨later, less, -⟩ := updates.increase rooted
    refine ⟨target, operand, ?_,
      fun _ _ _ asks => (ready_of_asks poised stack updates.settles asks).1, fun ready => ?_⟩
    · cases updates with
      | intro _ _ _ parts => exact parts
    · obtain ⟨m₀, runs, driven₀, began, settling, protocol⟩ :=
        driven.protocol keeps stack updates.settles ready
      exact ⟨m₀, runs, driven₀, began, settling, protocol,
        fun _ _ asks => handed_of_protocol poised stack updates.settles (by omega) protocol asks,
        fun nothing numeric =>
          inPlace_of_updates poised stack updates ready nothing protocol numeric⟩
  · simp [isIdle, stack_of_error failed, pending_of_error failed]

theorem convertsInOrder_of_driven_subtraction :
    Mixed.natives.Keeps ∧ Driven Mixed.natives Mixed.ready ∧
      Mixed.ready.ConvertsInOrder Store.Unscripted Mixed.natives :=
  ⟨Mixed.keeps, Mixed.driven, convertsInOrder_of_driven Mixed.keeps Mixed.driven⟩

/-- The hook of the program for the right operand starts while the left one still has its hook of
the host to run, and so the functions of the host are called from right to left. -/
theorem not_convertsInOrder_inert :
    Mixed.natives.Keeps ∧ parse "a - b;" = .ok Mixed.code ∧ Driven Mixed.natives Mixed.ready ∧
      ¬ Mixed.ready.ConvertsInOrder Store.Inert Mixed.natives ∧
      (execute Mixed.natives.recorded 40 Mixed.begun.recorded).map (·.2.store.host.2.map (·.1)) =
        some [0, 1] := by
  refine ⟨Mixed.keeps, Mixed.parsed, Mixed.driven, fun ordered => ?_, by decide +kernel⟩
  obtain ⟨left, right, parts, -, folded⟩ :=
    ordered.operators Mixed.frame [] .subtract .subtract rfl rfl rfl
  cases parts
  obtain ⟨m₀, runs, -, -, -, first⟩ := folded (.inl rfl)
  have asks : Mixed.ready.Asks Mixed.natives 4 .toNumber (Mixed.store.closure 0) :=
    ⟨Mixed.frame, [], rfl, by cbv⟩
  rcases first.handed _ _ asks with earlier | inert
  · exact HookRun.coerced?_eq_none.mp ((first.protocol.kept 3).symm.trans rfl) earlier
  · cases inert.1

end Machine

end StepScript
