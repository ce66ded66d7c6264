import StepScript.Proofs.Stack.Discipline
import StepScript.Proofs.Value.Coercion

/-! Folds: what nodes make of their finished operands.

Operators and nodes with a condition are met again and again once their operands
are finished: each time a hook may still have to run for one of them, and when
there is none left the node does the rest in one step. `Fold` is that rest, `Folds`
says which node does it, and `exec_fold` that all kinds of nodes go about it in
the same way. Assignments are not among them, as they also look at their target.
-/

set_option autoImplicit false

namespace StepScript

variable {σ α β : Type} {host : Host σ}

/-- What a node does with its finished operands. -/
inductive Fold where
  | binary (op : BinaryOp) (left right : Nat)
  | unary (op : UnaryOp) (operand : Nat)
  /-- The left operand is the value if its truth is `stopsOn`; else the right one is. -/
  | logical (stopsOn : Bool) (left right : Nat)
  /-- The condition says which child comes next; without one the node is `undefined`. -/
  | choose (test yes : Nat) (no : Option Nat)

def Frame.used (frame : Frame) (operand : Nat) : Value :=
  (frame.converted.find? operand).getD (frame.peek operand)

namespace Fold

def decider : Fold → Nat
  | binary _ _ right => right
  | unary _ operand => operand
  | logical _ left _ => left
  | choose test _ _ => test

def operands : Fold → List Nat
  | binary _ left right => [left, right]
  | unary _ operand => [operand]
  | logical _ left _ => [left]
  | choose test _ _ => [test]

def conversion? (fold : Fold) (value : Nat → Value) : Option Conversion :=
  match fold with
  | binary op left right =>
    if op.isNumericOn (value left) (value right) then some .toNumber else none
  | unary op _ => op.conversion?
  | logical _ _ _ | choose _ _ _ => some .toBoolean

/-- The move that the operands lead to. `value` is what they are, and `used` what stands for them
where they are converted. -/
def outcome (host : Host σ) (fold : Fold) (value used : Nat → Value) : Act σ Move :=
  match fold with
  | binary op left right => do return .finish (← host.binary op (used left) (used right))
  | unary op operand => do return .finish (← host.unary op (used operand))
  | logical stopsOn left right => do
    let truth ← host.toBoolean (used left)
    return if truth = stopsOn then .finish (value left) else .descend right
  | choose test yes no => do
    let truth ← host.toBoolean (used test)
    return if truth then .descend yes else no.elim (.finish .undefined) .descend

/-- An operand is converted, and it has this hook of the program for that. -/
def Wants (fold : Fold) (value : Nat → Value) (s : Store σ) (operand : Nat)
    (conversion : Conversion) (hook : Closure) : Prop :=
  operand ∈ fold.operands ∧ fold.conversion? value = some conversion ∧
    ∃ id, s.scriptHook? (value operand) conversion.hook = some id ∧ hook = s.closure id

def next? (fold : Fold) (value : Nat → Value) (converted : NodeMap Value) (s : Store σ) :
    Option Move :=
  (fold.conversion? value).bind fun conversion =>
    (Handler.pendingHook? converted s conversion
      (fold.operands.map fun operand => (operand, value operand))).map fun hook =>
        .convert hook.1 conversion (s.closure hook.2)

def taken (fold : Fold) (frame : Frame) : Frame :=
  fold.operands.foldl (fun frame operand => (frame.discard operand).discardConverted operand) frame

def apply (host : Host σ) (fold : Fold) (l : Local σ) : Except EvalError Move × Local σ :=
  match (fold.outcome host l.frame.peek l.frame.used).run l.store with
  | (.ok move, s) => (.ok move, ⟨fold.taken l.frame, s⟩)
  | (.error e, s) => (.error (.ofValueError e), ⟨fold.taken l.frame, s⟩)

def exec (host : Host σ) (fold : Fold) (l : Local σ) : Except EvalError Move × Local σ :=
  match fold.next? l.frame.peek l.frame.converted l.store with
  | some move => (.ok move, l)
  | none => fold.apply host l

end Fold

inductive Folds (code : Code) (n : Nat) : Fold → Prop where
  | binary {o : Operation} {op : BinaryOp} {left right : Nat}
    (found : code.get? n = some (.operation o)) (binary : o.binary? = some op)
    (parts : code.children n = [left, right]) : Folds code n (.binary op left right)
  | unary {o : Operation} {op : UnaryOp} {operand : Nat}
    (found : code.get? n = some (.operation o)) (unary : o.unary? = some op)
    (parts : code.children n = [operand]) : Folds code n (.unary op operand)
  | logicalAnd {left right : Nat} (found : code.get? n = some (.operation .logicalAnd))
    (parts : code.children n = [left, right]) : Folds code n (.logical false left right)
  | logicalOr {left right : Nat} (found : code.get? n = some (.operation .logicalOr))
    (parts : code.children n = [left, right]) : Folds code n (.logical true left right)
  | conditional {test yes no : Nat} (found : code.get? n = some (.operation .conditional))
    (parts : code.children n = [test, yes, no]) : Folds code n (.choose test yes (some no))
  | ifElse {test yes : Nat} {no : Option Nat} (found : code.get? n = some (.statement .ifElse))
    (parts : code.children n = test :: yes :: no.toList) : Folds code n (.choose test yes no)
  | whileLoop {test body : Nat} (found : code.get? n = some (.statement .whileLoop))
    (parts : code.children n = [test, body]) : Folds code n (.choose test body none)
  | doLoop {test body : Nat} (found : code.get? n = some (.statement .doLoop))
    (parts : code.children n = [body, test]) : Folds code n (.choose test body none)

theorem Site.exists_folds {code : Code} {n : Nat} {node : Node} {parts : List Node}
    (site : Site code n node parts) (folds : node.folds = true)
    (plain : node.isAssignment = false) : ∃ fold, Folds code n fold := by
  have lengths : (code.children n).length = parts.length := by
    simpa using congrArg List.length site.children
  -- The shape gives the number of the parts, and each kind of node has its own names for them.
  cases node with
  | declare | use | literal => cases folds
  | operation o =>
    have arity {count : Nat} (fixed : o.arity? = some count) : (code.children n).length = count :=
      lengths.trans (Operation.length_of_fits site.fits fixed)
    cases binary : o.binary? with
    | some op =>
      obtain ⟨left, right, whole⟩ := List.length_eq_two.mp
        (arity (Operation.arity?_of_binary? binary))
      exact ⟨_, .binary site.get? binary whole⟩
    | none =>
    cases unary : o.unary? with
    | some op =>
      obtain ⟨operand, whole⟩ := List.length_eq_one_iff.mp
        (arity (Operation.arity?_of_unary? unary))
      exact ⟨_, .unary site.get? unary whole⟩
    | none =>
    cases update : o.update? with
    | some op =>
      rw [Node.isAssignment, Operation.isAssignment_of_update? update] at plain
      cases plain
    | none =>
      simp only [Node.folds, binary, unary, update, Option.isSome_none, Bool.false_or,
        Bool.or_eq_true, beq_iff_eq] at folds
      rcases folds with (rfl | rfl) | rfl
      · obtain ⟨left, right, whole⟩ := List.length_eq_two.mp (arity rfl)
        exact ⟨_, .logicalAnd site.get? whole⟩
      · obtain ⟨left, right, whole⟩ := List.length_eq_two.mp (arity rfl)
        exact ⟨_, .logicalOr site.get? whole⟩
      · obtain ⟨test, yes, no, whole⟩ := List.length_eq_three.mp (arity rfl)
        exact ⟨_, .conditional site.get? whole⟩
  | statement s =>
    have fits : s.fits parts = true := site.fits
    have count := Statement.length_of_fits site.fits
    cases s with
    | ifElse =>
      rcases parts with _ | ⟨_, _ | ⟨_, _ | ⟨_, _ | ⟨_, _⟩⟩⟩⟩
      · cases fits
      · cases fits
      · obtain ⟨test, yes, whole⟩ := List.length_eq_two.mp lengths
        exact ⟨.choose test yes none, .ifElse site.get? whole⟩
      · obtain ⟨test, yes, no, whole⟩ := List.length_eq_three.mp lengths
        exact ⟨.choose test yes (some no), .ifElse site.get? whole⟩
      · cases fits
    | whileLoop =>
      obtain ⟨test, body, whole⟩ := List.length_eq_two.mp (lengths.trans count)
      exact ⟨_, .whileLoop site.get? whole⟩
    | doLoop =>
      obtain ⟨body, test, whole⟩ := List.length_eq_two.mp (lengths.trans count)
      exact ⟨_, .doLoop site.get? whole⟩
    | _ => cases folds

namespace Folds

variable {code : Code} {n : Nat} {fold : Fold} (folds : Folds code n fold)
include folds

theorem node : ∃ node, code.get? n = some node ∧ node.folds = true ∧ node.isAssignment = false := by
  cases folds with
  | binary found binary =>
    exact ⟨_, found, by simp [Node.folds, binary], Operation.isAssignment_of_binary? binary⟩
  | @unary o _ _ found unary =>
    exact ⟨_, found, by simp [Node.folds, unary], by cases o <;> first | rfl | cases unary⟩
  | logicalAnd found | logicalOr found | conditional found => exact ⟨_, found, rfl, rfl⟩
  | ifElse found | whileLoop found | doLoop found => exact ⟨_, found, rfl, rfl⟩

theorem decider_mem : fold.decider ∈ code.children n := by
  cases folds with
  | _ => rename_i parts; simp [parts, Fold.decider]

theorem below {s : Statement} (rooted : code.Rooted s) (which : s = .unit ∨ s = .block) :
    n ≠ 0 := by
  rintro rfl
  obtain ⟨node, found, isFold, -⟩ := folds.node
  cases rooted.get?_zero.symm.trans found
  rcases which with rfl | rfl
  · cases isFold
  · cases isFold

end Folds

/-! ## Meeting a fold -/

section Met

variable {frame : Frame} (poised : frame.Poised) (inner : frame.current ≠ 0)
include poised inner

theorem Frame.met :
    (frame.previous = frame.current ∧ frame.visitFolding frame.current = .ok none) ∨
    (frame.previous ∈ frame.code.children frame.current ∧
      frame.visitFolding frame.current = .ok (some (.resume frame.previous))) ∨
    (frame.previous ≠ frame.current ∧ frame.previous ∉ frame.code.children frame.current ∧
      frame.visitFolding frame.current = .ok (some .enter)) := by
  obtain ⟨root, rooted, -⟩ := poised.rooted
  obtain ⟨a, above, -, -⟩ := rooted.exists_parent poised.inside inner
  have low := rooted.lt_of_parent poised.inside above
  unfold Frame.visitFolding Frame.visit
  rw [above, Option.isSome_some]
  cases poised.stance with
  | start isRoot => exact absurd isRoot inner
  | entered member inside =>
    cases (rooted.parent_of_mem inside member).symm.trans above
    refine .inr (.inr ⟨Nat.ne_of_lt low, fun back => ?_, ?_⟩)
    · have := (rooted.child_bounds back).1
      omega
    · rw [if_neg (by omega), if_pos (beq_self_eq_true _)]
      rfl
  | resumed member =>
    have high := (rooted.child_bounds member).1
    refine .inr (.inl ⟨member, ?_⟩)
    rw [if_neg (by omega), if_neg (by simp; omega),
      if_pos (rooted.parent_of_mem poised.inside member)]
    rfl
  | waited same => exact .inl ⟨same, if_pos ⟨same, rfl⟩⟩

theorem Frame.met_ready {d : Nat} (member : d ∈ frame.code.children frame.current)
    (ready : frame.previous = d ∨ frame.previous = frame.current) :
    frame.visitFolding frame.current = .ok none ∨
      frame.visitFolding frame.current = .ok (some (.resume d)) := by
  obtain ⟨root, rooted, -⟩ := poised.rooted
  rcases Frame.met poised inner with ⟨-, again⟩ | ⟨below, resumed⟩ | ⟨moved, outside, -⟩
  · exact .inl again
  · rcases ready with last | same
    · exact .inr (by rw [resumed, last])
    · have := (rooted.child_bounds below).1
      omega
  · rcases ready with last | same
    · rw [last] at outside
      exact absurd member outside
    · exact absurd same moved

end Met

/-- The operands are finished: the node is met after the last of them, or after a hook. -/
def Frame.Ready (frame : Frame) (fold : Fold) : Prop :=
  frame.previous = fold.decider ∨ frame.previous = frame.current

/-! ## Hooks that still have to run -/

namespace Handler

variable {converted : NodeMap Value} {s : Store σ} {conversion : Conversion}
  {operands : List (Nat × Value)}

theorem eq_some_of_pendingHook? {hook : Nat × Nat}
    (pending : pendingHook? converted s conversion operands = some hook) :
    ∃ value, (hook.1, value) ∈ operands ∧ converted.find? hook.1 = none ∧
      s.scriptHook? value conversion.hook = some hook.2 := by
  fun_induction pendingHook? converted s conversion operands with
  | case1 => cases pending
  | case2 operand value rest settled ih =>
    obtain ⟨other, member, facts⟩ := ih pending
    exact ⟨other, List.mem_cons_of_mem _ member, facts⟩
  | case3 operand value rest unsettled id hooked =>
    cases pending
    exact ⟨value, List.mem_cons_self, by simpa [NodeMap.contains] using unsettled, hooked⟩
  | case4 operand value rest unsettled plain ih =>
    obtain ⟨other, member, facts⟩ := ih pending
    exact ⟨other, List.mem_cons_of_mem _ member, facts⟩

theorem scriptHook?_of_pendingHook? (done : pendingHook? converted s conversion operands = none)
    {operand : Nat} {value : Value} (member : (operand, value) ∈ operands)
    (unsettled : converted.find? operand = none) :
    s.scriptHook? value conversion.hook = none := by
  fun_induction pendingHook? converted s conversion operands with
  | case1 => cases member
  | case2 operand' value' rest settled ih =>
    rcases List.mem_cons.mp member with same | later
    · cases same
      simp [NodeMap.contains, unsettled] at settled
    · exact ih done later
  | case3 => cases done
  | case4 operand' value' rest unsettled plain ih =>
    rcases List.mem_cons.mp member with same | later
    · cases same
      exact plain
    · exact ih done later

end Handler

namespace Fold

variable {fold : Fold} {frame : Frame} {value : Nat → Value} {converted : NodeMap Value}
  {s : Store σ}

theorem eq_some_of_next? {move : Move} (next : fold.next? value converted s = some move) :
    ∃ operand conversion hook, move = .convert operand conversion hook ∧
      converted.find? operand = none ∧ fold.Wants value s operand conversion hook := by
  obtain ⟨conversion, wanted, found⟩ := Option.bind_eq_some_iff.mp next
  obtain ⟨hook, pending, rfl⟩ := Option.map_eq_some_iff.mp found
  obtain ⟨value, member, unsettled, hooked⟩ := Handler.eq_some_of_pendingHook? pending
  obtain ⟨operand, listed, same⟩ := List.mem_map.mp member
  cases same
  exact ⟨_, _, _, rfl, unsettled, listed, wanted, _, hooked, rfl⟩

theorem scriptHook?_of_next? (done : fold.next? value converted s = none) {operand : Nat}
    (member : operand ∈ fold.operands) {conversion : Conversion}
    (wanted : fold.conversion? value = some conversion)
    (unsettled : converted.find? operand = none) :
    s.scriptHook? (value operand) conversion.hook = none := by
  rw [next?, wanted, Option.bind_some, Option.map_eq_none_iff] at done
  exact Handler.scriptHook?_of_pendingHook? done (List.mem_map.mpr ⟨operand, member, rfl⟩) unsettled

theorem taken_same (fold : Fold) (frame : Frame) :
    frame.Same (fold.taken frame) ∧ (fold.taken frame).current = frame.current := by
  cases fold <;> exact ⟨⟨rfl, rfl, rfl⟩, rfl⟩

theorem outcome_cases {value used : Nat → Value} {move : Move} {s' : Store σ}
    (run : (fold.outcome host value used).run s = (.ok move, s')) :
    (∃ v, move = .finish v) ∨ ∃ c, move = .descend c := by
  unfold outcome at run
  split at run
  all_goals
    rw [Act.run_bind] at run
    split at run
    all_goals cases run
  · exact .inl ⟨_, rfl⟩
  · exact .inl ⟨_, rfl⟩
  · split
    · exact .inl ⟨_, rfl⟩
    · exact .inr ⟨_, rfl⟩
  · split
    · exact .inr ⟨_, rfl⟩
    · rename_i no _ _ _ _
      cases no with
      | none => exact .inl ⟨_, rfl⟩
      | some c => exact .inr ⟨c, rfl⟩

end Fold

def Move.goesOn : Move → Bool
  | .descend _ | .finish _ => true
  | .give _ | .call _ _ | .convert _ _ _ => false

/-! ## The rest of a handler -/

namespace Handler

theorem exec_requiredChild {n i c : Nat} {l : Local σ}
    (promised : (l.frame.code.children n)[i]? = some c) (g : Nat → Handler σ α) :
    (requiredChild n i >>= g).exec l = (g c).exec l := by
  rw [← Outline.child] at promised
  simp [requiredChild, promised]

section Hooks

variable {fold : Fold} {rest : Handler σ Move} {l : Local σ}

/-- Hooks are run for the operands, and then the node does the rest. -/
theorem exec_afterHooks {value : Nat → Value} {conversion : Conversion}
    (wanted : fold.conversion? value = some conversion) :
    (afterHooks (fold.operands.map fun operand => (operand, value operand)) conversion
      rest).exec l =
      match fold.next? value l.frame.converted l.store with
      | some move => (.ok move, l)
      | none => rest.exec l := by
  simp only [Fold.next?, wanted, Option.bind_some]
  cases pending : pendingHook? l.frame.converted l.store conversion
      (fold.operands.map fun operand => (operand, value operand)) with
  | none => exact exec_afterHooks_none pending rest
  | some hook => exact exec_afterHooks_some pending rest

variable (applied : rest.exec l = fold.apply host l)
include applied

theorem exec_converted {conversion : Conversion}
    (wanted : fold.conversion? l.frame.peek = some conversion) :
    (afterHooks (fold.operands.map fun operand => (operand, l.frame.peek operand)) conversion
      rest).exec l = fold.exec host l := by
  rw [exec_afterHooks wanted, applied, Fold.exec]

theorem exec_unconverted (wanted : fold.conversion? l.frame.peek = none) :
    rest.exec l = fold.exec host l := by
  rw [Fold.exec, Fold.next?, wanted]
  exact applied

end Hooks

variable (l : Local σ)

theorem exec_foldBinary_eq {left right : Nat} (differ : left ≠ right) (op : BinaryOp) :
    (foldBinary host op left right).exec l = (Fold.binary op left right).exec host l := by
  have other : right ≠ left := Ne.symm differ
  have kept : ((l.frame.discard left).discardConverted left).used right = l.frame.used right := by
    simp [Frame.used, Frame.discardConverted, Frame.discard, Frame.peek, NodeMap.find?_erase, other]
  have applied : (applyBinary host op left right).exec l =
      (Fold.binary op left right).apply host l := by
    simp only [applyBinary, exec_bind, exec_takeConverted, andThen_ok, exec_act, Fold.apply,
      Fold.outcome, Act.run_bind]
    rw [← Frame.used, ← Frame.used, kept]
    rcases (host.binary op (l.frame.used left) (l.frame.used right)).run l.store with ⟨e | v, s⟩
    · rfl
    · rfl
  rw [exec_foldBinary]
  cases numeric : op.isNumericOn (l.frame.peek left) (l.frame.peek right) with
  | true => exact exec_converted applied (if_pos numeric)
  | false =>
    exact (exec_afterHooks_none rfl _).trans
      (exec_unconverted applied (if_neg (by rw [numeric]; decide)))

theorem exec_foldUnary_eq (op : UnaryOp) (operand : Nat) :
    (foldUnary host op operand).exec l = (Fold.unary op operand).exec host l := by
  have applied : (applyUnary host op operand).exec l = (Fold.unary op operand).apply host l := by
    simp only [applyUnary, exec_bind, exec_takeConverted, andThen_ok, exec_act, Fold.apply,
      Fold.outcome, Act.run_bind]
    rw [← Frame.used]
    rcases (host.unary op (l.frame.used operand)).run l.store with ⟨e | v, s⟩
    · rfl
    · rfl
  cases wanted : op.conversion? with
  | some conversion =>
    rw [exec_foldUnary wanted]
    exact exec_converted applied wanted
  | none =>
    rw [← exec_unconverted applied wanted]
    simp only [foldUnary, unaryHook, wanted]
    rfl

theorem exec_foldLogical_eq (stopsOn : Bool) (left right : Nat) :
    (foldLogical host stopsOn left right).exec l =
      (Fold.logical stopsOn left right).exec host l := by
  have applied : (applyLogical host stopsOn left right).exec l =
      (Fold.logical stopsOn left right).apply host l := by
    simp only [applyLogical, exec_bind, exec_take, andThen_ok, exec_frame, exec_modifyFrame,
      exec_act, Fold.apply, Fold.outcome, Act.run_bind]
    rw [show (l.frame.discard left).converted = l.frame.converted from rfl, ← Frame.used]
    rcases (host.toBoolean (l.frame.used left)).run l.store with ⟨e | truth, s⟩
    · rfl
    · simp only [andThen_ok, exec_ite]
      split
      · rfl
      · rfl
  rw [exec_foldLogical]
  exact exec_converted applied rfl

theorem exec_decide_eq {test yes : Nat} {no : Option Nat} {g : Bool → Handler σ Move}
    (goes : ∀ truth l', l'.frame.code = l.frame.code → (g truth).exec l' =
      (.ok (if truth then .descend yes else no.elim (.finish .undefined) .descend), l')) :
    (decide host test g).exec l = (Fold.choose test yes no).exec host l := by
  have applied : (decided host test g).exec l = (Fold.choose test yes no).apply host l := by
    simp only [decided, exec_bind, exec_takeConverted, andThen_ok, exec_act, Fold.apply,
      Fold.outcome, Act.run_bind]
    rw [← Frame.used]
    rcases (host.toBoolean (l.frame.used test)).run l.store with ⟨e | truth, s⟩
    · rfl
    · exact goes truth _ rfl
  rw [exec_decide]
  exact exec_converted applied rfl

theorem exec_loopTest_eq (test body : Nat) :
    (loopTest host test body).exec l = (Fold.choose test body none).exec host l := by
  rw [loopTest_eq]
  refine exec_decide_eq l fun truth l' same => ?_
  cases truth with
  | true => rfl
  | false => rfl

theorem exec_chooseOperand_eq {node test yes no : Nat}
    (parts : l.frame.code.children node = [test, yes, no]) :
    (chooseOperand host node test).exec l = (Fold.choose test yes (some no)).exec host l := by
  rw [chooseOperand_eq]
  refine exec_decide_eq l fun truth l' same => ?_
  rw [← same] at parts
  cases truth with
  | true => exact exec_requiredChild (by rw [parts]; rfl) _
  | false => exact exec_requiredChild (by rw [parts]; rfl) _

theorem exec_chooseBranch_eq {node test yes : Nat} {no : Option Nat}
    (parts : l.frame.code.children node = test :: yes :: no.toList) :
    (chooseBranch host node test).exec l = (Fold.choose test yes no).exec host l := by
  rw [chooseBranch_eq]
  refine exec_decide_eq l fun truth l' same => ?_
  rw [← same] at parts
  cases truth with
  | true => exact exec_requiredChild (by rw [parts]; rfl) _
  | false =>
    have third : l'.frame.code.child node 2 = no := by
      rw [Outline.child, parts]
      cases no with
      | some no => rfl
      | none => rfl
    simp only [Bool.false_eq_true, if_false, exec_bind, exec_code, andThen_ok, third]
    cases no with
    | some no => rfl
    | none => rfl

def Quiet (x : Handler σ Move) (l : Local σ) : Prop :=
  ∃ move l', x.exec l = (.ok move, l') ∧ move.goesOn = true

end Handler

/-! ## Nodes -/

section Node

variable {frame : Frame} (poised : frame.Poised) (s : Store σ)

theorem exec_node {node : Node} (found : frame.code.get? frame.current = some node) :
    (Handler.node host frame.current).exec ⟨frame, s⟩ =
      (Setting.handle host frame.current node).exec ⟨frame, s⟩ := by
  rw [Handler.node, Handler.exec_bind, Handler.exec_code, Handler.andThen_ok, found]
  cases node <;> rfl

section Visit

variable (inner : frame.current ≠ 0) {d : Nat} {g : Option Visit → Handler σ Move}
include poised inner

theorem exec_visitFolding_ready (member : d ∈ frame.code.children frame.current)
    (ready : frame.previous = d ∨ frame.previous = frame.current) {x : Handler σ Move}
    (again : g none = x) (last : g (some (.resume d)) = x) :
    (Handler.visitFolding frame.current >>= g).exec ⟨frame, s⟩ = x.exec ⟨frame, s⟩ := by
  rw [Handler.exec_bind, Setting.exec_visitFolding]
  rcases Frame.met_ready poised inner member ready with waited | resumed
  · rw [waited, Handler.exec_ofExcept_ok, Handler.andThen_ok, again]
  · rw [resumed, Handler.exec_ofExcept_ok, Handler.andThen_ok, last]

theorem exec_visitFolding_unready
    (unready : ¬ (frame.previous = d ∨ frame.previous = frame.current))
    (enter : (g (some .enter)).Quiet ⟨frame, s⟩)
    (resume : ∀ c ∈ frame.code.children frame.current, c ≠ d →
      (g (some (.resume c))).Quiet ⟨frame, s⟩) :
    (Handler.visitFolding frame.current >>= g).Quiet ⟨frame, s⟩ := by
  unfold Handler.Quiet
  rw [Handler.exec_bind, Setting.exec_visitFolding]
  rcases Frame.met poised inner with ⟨same, -⟩ | ⟨below, resumed⟩ | ⟨-, -, entered⟩
  · exact absurd (.inr same) unready
  · rw [resumed, Handler.exec_ofExcept_ok, Handler.andThen_ok]
    exact resume _ below fun last => unready (.inl last)
  · rw [entered, Handler.exec_ofExcept_ok, Handler.andThen_ok]
    exact enter

end Visit

variable {fold : Fold} (folds : Folds frame.code frame.current fold)
include folds poised

/-- Nodes that fold all do so in the same way. -/
theorem exec_fold (ready : frame.Ready fold) :
    (Handler.node host frame.current).exec ⟨frame, s⟩ = fold.exec host ⟨frame, s⟩ := by
  obtain ⟨root, rooted, which⟩ := poised.rooted
  have increase := rooted.children_increase frame.current
  have go {g : Option Visit → Handler σ Move} {x : Handler σ Move} :=
    exec_visitFolding_ready (g := g) (x := x) poised s (folds.below rooted which)
      folds.decider_mem ready
  have promised {i c : Nat} {g : Nat → Handler σ Move}
      (selected : (frame.code.children frame.current)[i]? = some c) :
      (Handler.requiredChild frame.current i >>= g).exec ⟨frame, s⟩ = (g c).exec ⟨frame, s⟩ :=
    Handler.exec_requiredChild (l := ⟨frame, s⟩) selected g
  -- Every kind of node looks its parts up, is met again and then folds.
  cases folds with
  | binary found binary parts =>
    rw [parts] at increase promised
    have differ := Nat.ne_of_lt (List.rel_of_pairwise_cons increase List.mem_cons_self)
    rw [exec_node s found, Setting.handle, Handler.operation_of_binary? host binary,
      ← Handler.exec_foldBinary_eq _ differ]
    exact (promised (i := 0) rfl).trans ((promised (i := 1) rfl).trans
      (go rfl (if_neg differ.symm)))
  | unary found unary parts =>
    rw [parts] at promised
    rw [exec_node s found, Setting.handle, Handler.operation_of_unary? host unary,
      ← Handler.exec_foldUnary_eq]
    exact (promised (i := 0) rfl).trans (go rfl rfl)
  | logicalAnd found parts | logicalOr found parts =>
    rw [parts] at promised
    rw [exec_node s found, ← Handler.exec_foldLogical_eq]
    exact (promised (i := 0) rfl).trans ((promised (i := 1) rfl).trans (go rfl (if_pos rfl)))
  | conditional found parts =>
    rw [exec_node s found, ← Handler.exec_chooseOperand_eq ⟨frame, s⟩ parts]
    rw [parts] at promised
    exact (promised (i := 0) rfl).trans (go rfl (if_pos rfl))
  | ifElse found parts =>
    rw [exec_node s found, ← Handler.exec_chooseBranch_eq ⟨frame, s⟩ parts]
    rw [parts] at promised
    exact (promised (i := 0) rfl).trans (go rfl (if_pos rfl))
  | whileLoop found parts =>
    rw [parts] at promised
    rw [exec_node s found, ← Handler.exec_loopTest_eq]
    exact (promised (i := 0) rfl).trans ((promised (i := 1) rfl).trans (go rfl (if_pos rfl)))
  | doLoop found parts =>
    rw [parts] at increase promised
    have differ := Nat.ne_of_lt (List.rel_of_pairwise_cons increase List.mem_cons_self)
    rw [exec_node s found, ← Handler.exec_loopTest_eq]
    exact (promised (i := 0) rfl).trans ((promised (i := 1) rfl).trans
      (go rfl (if_neg differ.symm)))

theorem quiet_unready (unready : ¬ frame.Ready fold) :
    (Handler.node host frame.current).Quiet ⟨frame, s⟩ := by
  obtain ⟨root, rooted, which⟩ := poised.rooted
  have go {g : Option Visit → Handler σ Move} :=
    exec_visitFolding_unready (g := g) poised s (folds.below rooted which) unready
  have promised {i c : Nat} {g : Nat → Handler σ Move}
      (selected : (frame.code.children frame.current)[i]? = some c)
      (quiet : (g c).Quiet ⟨frame, s⟩) :
      (Handler.requiredChild frame.current i >>= g).Quiet ⟨frame, s⟩ := by
    unfold Handler.Quiet
    rw [Handler.exec_requiredChild (l := ⟨frame, s⟩) selected g]
    exact quiet
  unfold Handler.Quiet at go promised ⊢
  have down (c : Nat) : (pure (.descend c) : Handler σ Move).Quiet ⟨frame, s⟩ := ⟨_, _, rfl, rfl⟩
  -- Met before its decider is finished, every kind of node goes down to a part.
  cases folds with
  | @binary o op left right found binary parts =>
    rw [parts] at promised go
    rw [exec_node s found, Setting.handle, Handler.operation_of_binary? host binary]
    refine promised (i := 0) rfl (promised (i := 1) rfl (go (down left) fun c member other => ?_))
    have first : c = left := (List.mem_pair.mp member).resolve_right other
    simp only [if_pos first]
    exact down right
  | @unary o op operand found unary parts =>
    rw [parts] at promised go
    rw [exec_node s found, Setting.handle, Handler.operation_of_unary? host unary]
    exact promised (i := 0) rfl (go (down operand) fun c member other =>
      absurd (List.mem_singleton.mp member) other)
  | @logicalAnd left right found parts | @logicalOr left right found parts =>
    rw [parts] at promised
    rw [exec_node s found]
    refine promised (i := 0) rfl (promised (i := 1) rfl (go (down left) fun c member other => ?_))
    simp only [if_neg (show c ≠ left from other)]
    exact ⟨_, _, rfl, rfl⟩
  | @conditional test yes no found parts =>
    rw [parts] at promised
    rw [exec_node s found]
    refine promised (i := 0) rfl (go (down test) fun c member other => ?_)
    simp only [if_neg (show c ≠ test from other)]
    exact ⟨_, _, rfl, rfl⟩
  | @ifElse test yes no found parts =>
    rw [parts] at promised
    rw [exec_node s found]
    refine promised (i := 0) rfl (go (down test) fun c member other => ?_)
    simp only [if_neg (show c ≠ test from other)]
    exact ⟨_, _, rfl, rfl⟩
  | @whileLoop test body found parts =>
    rw [parts] at promised
    rw [exec_node s found]
    refine promised (i := 0) rfl (promised (i := 1) rfl (go (down test) fun c member other => ?_))
    simp only [if_neg (show c ≠ test from other)]
    exact ⟨_, _, rfl, rfl⟩
  | @doLoop test body found parts =>
    rw [parts] at promised go
    rw [exec_node s found]
    refine promised (i := 0) rfl (promised (i := 1) rfl (go (down body) fun c member other => ?_))
    have first : c = body := (List.mem_pair.mp member).resolve_right other
    simp only [if_pos first]
    exact ⟨_, _, rfl, rfl⟩

end Node

end StepScript
