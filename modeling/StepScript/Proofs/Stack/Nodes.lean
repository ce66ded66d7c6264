import StepScript.Proofs.Evaluator.Agreement
import StepScript.Proofs.Stack.Tidiness

/-! The handlers of all nodes tidy up.

One lemma for each kind of node says that its handler, wherever the walk meets the
node, leaves nothing behind but what waits where its move leads. Statements
and operators that fold share the part that decides; what they have in common is
that their node holds nothing but the value of the child they decide by.
-/

set_option autoImplicit false

namespace StepScript

variable {σ α β : Type}

namespace Handler

section Node

variable {frame : Frame} (poised : frame.Poised) {M C : Nat → Prop}
  {Q : β → (Nat → Prop) → (Nat → Prop) → Prop}
include poised

/-! ## Statements and declarations -/

theorem leaves_descend {node : Node} {c : Nat} (found : frame.code.get? frame.current = some node)
    (through : node ≠ .operation .functionLiteral) (free : node.isAssignment = false)
    (member : c ∈ frame.code.children frame.current)
    (memo : ∀ k, M k → Waiting frame.code frame.current k ∨ Beside frame.code frame.current c k)
    (converted : ∀ k, ¬ C k) : (Move.descend c).Leaves frame M C := by
  obtain ⟨root, rooted, -⟩ := poised.rooted
  refine ⟨evaluated_of_plain rooted member found free, ?_, memo, converted⟩
  rw [found]
  exact fun same => through (Option.some.inj same)

omit poised in
theorem leaves_finish {value : Value} (memo : ∀ k, M k → Waiting frame.code frame.current k)
    (converted : ∀ k, ¬ C k) : (Move.finish value).Leaves frame M C :=
  ⟨fun k kept => .inl (memo k kept), converted⟩

theorem leaves_down {node : Node} {c : Nat} (found : frame.code.get? frame.current = some node)
    (through : node ≠ .operation .functionLiteral) (free : node.isAssignment = false)
    (member : c ∈ frame.code.children frame.current) :
    (Move.descend c).Leaves frame (Waiting frame.code frame.current) fun _ => False :=
  leaves_descend poised found through free member (fun _ => .inl) fun _ => id

omit poised in
theorem leaves_done (value : Value) :
    (Move.finish value).Leaves frame (Waiting frame.code frame.current) fun _ => False :=
  leaves_finish (fun _ => id) fun _ => id

theorem tidies_sequence {node : Node} (found : frame.code.get? frame.current = some node)
    (sequence : node.isSequence = true) :
    Tidies frame frame.Kept frame.Settled (Handler.sequence frame.current : Handler σ Move)
      (Move.Leaves frame) := by
  obtain ⟨root, rooted, -⟩ := poised.rooted
  obtain ⟨statement, rfl⟩ : ∃ s, node = .statement s := by
    cases node with
    | statement s => exact ⟨s, rfl⟩
    | declare | use | operation | literal => cases sequence
  have steady : (frame.code.get? frame.current).all Node.folds = false := by
    rw [found, Option.all_some]
    cases statement <;> first | rfl | cases sequence
  have met {c k : Nat} (member : c ∈ frame.code.children frame.current)
      (met : Met frame.code frame.current c k) :
      Waiting frame.code frame.current k ∨ k = frame.current ∨ k = c := by
    rcases met with waits | held | residue
    · exact .inl waits
    · cases held with
      | last => exact .inr (.inl rfl)
      | earlier other gathers =>
        cases found.symm.trans other
        cases gathers
    · exact .inr (.inr (residue.eq_of_plain rooted member found rfl))
  -- Only the value of the statement before stays, under the sequence itself.
  have next : Tidies frame frame.Kept frame.Settled
      (nextStatement frame.current : Handler σ (Option Nat)) fun next M C =>
        (∀ k, ¬ C k) ∧ (∀ k, M k → Waiting frame.code frame.current k ∨ k = frame.current) ∧
          ∀ c, next = some c → c ∈ frame.code.children frame.current := by
    refine .visit poised steady (.readCode (.pure ⟨fun _ => id, fun k => .inl,
      fun c => firstChild_mem poised⟩)) fun c member _ => ?_
    refine .take fun value => .keep (.readCode (.pure ⟨fun _ => id, fun k kept => ?_,
      fun next => nextSibling_mem poised member⟩))
    rcases kept with here | ⟨kept, other⟩
    · exact .inr here
    · rcases met member kept with waits | here | same
      · exact .inl waits
      · exact .inr here
      · exact absurd same other
  refine .bind next fun next M C ⟨gone, memo, member⟩ => ?_
  cases next with
  | some c =>
    refine .pure (leaves_descend poised found (by simp) rfl (member c rfl) (fun k kept => ?_) gone)
    rcases memo k kept with waits | here
    · exact .inl waits
    · rw [here]
      exact .inr (.last found sequence)
  | none =>
    refine .take fun value => .readCode (.ite (fun _ => .pure (leaves_finish (fun k kept => ?_)
      gone)) fun _ => .readFrame fun f => ?_)
    · rcases memo k kept.1 with waits | here
      · exact waits
      · exact absurd here kept.2
    · have gives : ∃ node, frame.code.get? frame.current = some node ∧
          (node.isSequence = true ∨ node = .statement .ret) := ⟨_, found, .inl sequence⟩
      split
      · exact .pure gives
      · exact .pure gives
      · exact .pure gives

section Plain

variable {node : Node} (found : frame.code.get? frame.current = some node)
  (plain : node.gathers = false) (single : node.isSequence = false)
include found plain single

theorem waiting_of_taken {c k : Nat} (member : c ∈ frame.code.children frame.current)
    (kept : Met frame.code frame.current c k ∧ k ≠ c) : Waiting frame.code frame.current k := by
  obtain ⟨root, rooted, -⟩ := poised.rooted
  rcases kept.1.of_plain rooted member found plain single with waits | same
  · exact waits
  · exact absurd same kept.2

theorem tidies_passThrough (steady : node.folds = false)
    (through : node ≠ .operation .functionLiteral) :
    Tidies frame frame.Kept frame.Settled (passThrough frame.current : Handler σ Move)
      (Move.Leaves frame) := by
  refine .visit poised (by rw [found]; exact steady) (.readCode ?_) fun c member _ =>
    .take fun value => .pure (leaves_finish
      (fun k => waiting_of_taken poised found plain single member) fun _ => id)
  cases first : frame.code.firstChild frame.current with
  | some c =>
    exact .pure (leaves_down poised found through (Node.free_of_plain plain)
      (firstChild_mem poised first))
  | none => exact .pure (leaves_done _)

end Plain

theorem tidies_returnValue (found : frame.code.get? frame.current = some (.statement .ret)) :
    Tidies frame frame.Kept frame.Settled (returnValue frame.current : Handler σ Move)
      (Move.Leaves frame) := by
  have gives (value : Value) (M C : Nat → Prop) : (Move.give value).Leaves frame M C :=
    ⟨_, found, .inr rfl⟩
  refine .visit poised (by rw [found]; rfl) (.readCode ?_) fun c member _ =>
    .take fun value => .pure (gives value _ _)
  cases first : frame.code.firstChild frame.current with
  | some c =>
    exact .pure (leaves_down poised found (by simp) rfl (firstChild_mem poised first))
  | none => exact .pure (gives .undefined _ _)

omit poised in
theorem tidies_bind (name : String) (value : Value) {g : Unit → Handler σ β}
    (next : Tidies frame M C (g ()) Q) :
    Tidies frame M C (Handler.bind name value >>= g) Q := by
  refine .after (.readStore fun s => .readFrame fun f => ?_) fun _ => next
  cases s.set f.scope name value with
  | ok s' => exact fun l held => ⟨M, C, ⟨held.same, held.memo, held.converted⟩, rfl, rfl⟩
  | error e => exact .fault (by simp)

theorem tidies_functionDeclaration {literal : Nat}
    (found : frame.code.get? frame.current = some (.statement .functionDeclaration))
    (promised : frame.code.child frame.current 0 = some literal) :
    Tidies frame frame.Kept frame.Settled (functionDeclaration frame.current : Handler σ Move)
      (Move.Leaves frame) := by
  refine .visit poised (by rw [found]; rfl) (.requiredChild promised (.pure
    (leaves_down poised found (by simp) rfl (List.mem_of_getElem? promised))))
    fun c member _ => .take fun value => ?_
  refine .after (.readStore fun s => ?_) fun _ => .pure (leaves_finish
    (fun k => waiting_of_taken poised found rfl rfl member) fun _ => id)
  cases s.ownName? value with
  | none => exact .pure ⟨rfl, rfl⟩
  | some name =>
    show Tidies frame _ _ (Handler.bind name value) _
    rw [← bind_pure (Handler.bind name value)]
    exact tidies_bind name value (.pure ⟨rfl, rfl⟩)

theorem tidies_declaration {name : String}
    (found : frame.code.get? frame.current = some (.declare name)) :
    Tidies frame frame.Kept frame.Settled (declaration frame.current name : Handler σ Move)
      (Move.Leaves frame) := by
  refine .visit poised (by rw [found]; rfl) (.readCode ?_) fun c member _ =>
    .take fun value => tidies_bind name value (.pure
      (leaves_finish (fun k => waiting_of_taken poised found rfl rfl member) fun _ => id))
  cases first : frame.code.firstChild frame.current with
  | some c =>
    exact .pure (leaves_down poised found (by simp) rfl (firstChild_mem poised first))
  | none =>
    exact tidies_bind name .undefined (.pure (leaves_done _))

/-! ## Nodes that fold -/

omit poised in
theorem tidies_afterHooks {operands : List (Nat × Value)} {conversion : Conversion}
    {rest : Handler σ Move}
    (convertible : ∀ operand ∈ operands.map (·.1), Convertible frame.code frame.current operand)
    (next : Tidies frame (Folding frame.code frame.current) (Convertible frame.code frame.current)
      rest (Move.Leaves frame)) :
    Tidies frame (Folding frame.code frame.current) (Convertible frame.code frame.current)
      (afterHooks operands conversion rest) (Move.Leaves frame) :=
  .runHooks (fun operand member _ => .pure ⟨convertible operand member, fun _ => id, fun _ => id⟩)
    next

omit poised in
/-- A fold that starts right after its decider starts as one that waited. -/
theorem tidies_fold {d : Nat} {fold : Handler σ Move} (decides : Decides frame.code frame.current d)
    (tidies : Tidies frame (Folding frame.code frame.current)
      (Convertible frame.code frame.current) fold (Move.Leaves frame)) :
    Tidies frame (Met frame.code frame.current d) (fun _ => False) fold (Move.Leaves frame) :=
  tidies.weaken (fun _ met => .inr ⟨d, decides, met⟩) (fun _ => False.elim)

section Single

variable {node : Node} {d : Nat} (found : frame.code.get? frame.current = some node)
  (plain : node.gathers = false) (single : node.isSequence = false)
  (decides : Decides frame.code frame.current d)
include found plain single decides

theorem waiting_of_folding {k : Nat} (kept : Folding frame.code frame.current k ∧ k ≠ d) :
    Waiting frame.code frame.current k := by
  rcases kept.1 with waits | ⟨c, other, met⟩
  · exact waits
  · cases decides.unique other
    exact waiting_of_taken poised found plain single decides.mem ⟨met, kept.2⟩

omit poised single in
theorem eq_of_convertible {k : Nat} (convertible : Convertible frame.code frame.current k) :
    k = d := by
  rcases convertible.of_plain found (Node.free_of_plain plain) with other | ⟨o, op, rfl, binary, -⟩
  · exact other.unique decides
  · simp [Node.gathers, binary] at plain

theorem tidies_taken {rest : Handler σ Move}
    (next : Tidies frame (Waiting frame.code frame.current) (fun _ => False) rest
      (Move.Leaves frame)) :
    Tidies frame (fun k => Folding frame.code frame.current k ∧ k ≠ d)
      (fun k => Convertible frame.code frame.current k ∧ k ≠ d) rest (Move.Leaves frame) :=
  next.weaken (fun _ => waiting_of_folding poised found plain single decides)
    fun _ kept => kept.2 (eq_of_convertible found plain decides kept.1)

omit poised single in
theorem convertible_of_mem {operands : List (Nat × Value)} (only : operands.map (·.1) = [d])
    (operand : Nat) (member : operand ∈ operands.map (·.1)) :
    Convertible frame.code frame.current operand := by
  rw [only] at member
  rw [List.mem_singleton.mp member]
  exact .decider found (Node.free_of_plain plain) decides

variable (host : Host σ)

theorem tidies_decide {g : Bool → Handler σ Move}
    (next : ∀ truth, Tidies frame (Waiting frame.code frame.current) (fun _ => False) (g truth)
      (Move.Leaves frame)) :
    Tidies frame (Folding frame.code frame.current) (Convertible frame.code frame.current)
      (decide host d g) (Move.Leaves frame) := by
  intro l held
  rw [show (decide host d g).run l = _ from exec_decide d g l]
  exact tidies_afterHooks (convertible_of_mem found plain decides rfl)
    (.takeConverted fun value => .act fun truth =>
      tidies_taken poised found plain single decides (next truth)) l held

theorem tidies_foldLogical {right : Nat} (through : node ≠ .operation .functionLiteral)
    (member : right ∈ frame.code.children frame.current) (stopsOn : Bool) :
    Tidies frame (Folding frame.code frame.current) (Convertible frame.code frame.current)
      (foldLogical host stopsOn d right) (Move.Leaves frame) := by
  intro l held
  rw [show (foldLogical host stopsOn d right).run l = _ from exec_foldLogical stopsOn d right l]
  refine tidies_afterHooks (convertible_of_mem found plain decides rfl)
    (.take fun value => .readFrame fun f => .discardConverted (.act fun truth =>
      tidies_taken poised found plain single decides (.ite (fun _ => .pure ?_) fun _ => .pure ?_)))
    l held
  · exact leaves_done _
  · exact leaves_down poised found through (Node.free_of_plain plain) member

theorem tidies_foldUnary (op : UnaryOp) :
    Tidies frame (Folding frame.code frame.current) (Convertible frame.code frame.current)
      (foldUnary host op d) (Move.Leaves frame) := by
  have applied : Tidies frame (Folding frame.code frame.current)
      (Convertible frame.code frame.current) (applyUnary host op d) (Move.Leaves frame) :=
    .takeConverted fun value => .act fun result =>
      tidies_taken poised found plain single decides (.pure (leaves_done _))
  cases wanted : op.conversion? with
  | none =>
    intro l held
    rw [show (foldUnary host op d).run l = (applyUnary host op d).run l by
      simp only [foldUnary, unaryHook, wanted]
      rfl]
    exact applied l held
  | some conversion =>
    intro l held
    rw [show (foldUnary host op d).run l = _ from exec_foldUnary wanted d l]
    exact tidies_afterHooks (convertible_of_mem found plain decides rfl) applied l held

end Single

section Deciding

variable (host : Host σ) {test : Nat}

omit poised in
theorem decides_first {node : Node} (found : frame.code.get? frame.current = some node)
    (folds : node.folds = true) (early : node.foldsFirst = true)
    (first : frame.code.child frame.current 0 = some test) :
    Decides frame.code frame.current test :=
  ⟨node, found, folds, by rw [if_pos early]; exact first⟩

omit poised in
theorem decides_last {node : Node} (found : frame.code.get? frame.current = some node)
    (folds : node.folds = true) (late : node.foldsFirst = false)
    (last : (frame.code.children frame.current).getLast? = some test) :
    Decides frame.code frame.current test :=
  ⟨node, found, folds, by rw [if_neg (by simp [late])]; exact last⟩

theorem tidies_ifElse {branch : Nat}
    (found : frame.code.get? frame.current = some (.statement .ifElse))
    (first : frame.code.child frame.current 0 = some test)
    (second : frame.code.child frame.current 1 = some branch) :
    Tidies frame frame.Kept frame.Settled (ifElse host frame.current) (Move.Leaves frame) := by
  have decides := decides_first found rfl rfl first
  have down {c i : Nat} (selected : frame.code.child frame.current i = some c) :=
    leaves_down poised found (by simp) rfl (List.mem_of_getElem? selected)
  have chosen : Tidies frame (Folding frame.code frame.current)
      (Convertible frame.code frame.current) (chooseBranch host frame.current test)
      (Move.Leaves frame) := by
    rw [chooseBranch_eq]
    refine tidies_decide poised found rfl rfl decides host fun truth => .ite (fun _ =>
      .requiredChild second (.pure (down second))) fun _ => .readCode ?_
    cases third : frame.code.child frame.current 2 with
    | some other => exact .pure (down third)
    | none => exact .pure (leaves_done _)
  refine .requiredChild first (.visitFolding poised (.pure (down first)) (fun c member _ => ?_)
    chosen)
  refine .ite (fun same => ?_) fun _ => .take fun value => .pure
    (leaves_finish (fun _ => waiting_of_taken poised found rfl rfl member) fun _ => id)
  rw [same]
  exact tidies_fold decides chosen

theorem tidies_loopTest {node : Node} {body : Nat}
    (found : frame.code.get? frame.current = some node)
    (loop : node = .statement .whileLoop ∨ node = .statement .doLoop)
    (decides : Decides frame.code frame.current test)
    (member : body ∈ frame.code.children frame.current) :
    Tidies frame (Folding frame.code frame.current) (Convertible frame.code frame.current)
      (loopTest host test body) (Move.Leaves frame) := by
  have plain : node.gathers = false ∧ node.isSequence = false ∧ node.isAssignment = false ∧
      node ≠ .operation .functionLiteral := by
    rcases loop with rfl | rfl
    · exact ⟨rfl, rfl, rfl, by simp⟩
    · exact ⟨rfl, rfl, rfl, by simp⟩
  rw [loopTest_eq]
  exact tidies_decide poised found plain.1 plain.2.1 decides host fun truth => .ite
    (fun _ => .pure (leaves_down poised found plain.2.2.2 plain.2.2.1 member))
    fun _ => .pure (leaves_done _)

theorem tidies_whileLoop {body : Nat}
    (found : frame.code.get? frame.current = some (.statement .whileLoop))
    (whole : frame.code.children frame.current = [test, body]) :
    Tidies frame frame.Kept frame.Settled (whileLoop host frame.current) (Move.Leaves frame) := by
  have first : frame.code.child frame.current 0 = some test := by rw [Outline.child, whole]; rfl
  have second : frame.code.child frame.current 1 = some body := by rw [Outline.child, whole]; rfl
  have decides := decides_first found rfl rfl first
  have loop := tidies_loopTest poised host found (.inl rfl) decides (List.mem_of_getElem? second)
  have down := leaves_down poised found (by simp) rfl (List.mem_of_getElem? first)
  refine .requiredChild first (.requiredChild second (.visitFolding poised (.pure down)
    (fun c member _ => .ite (fun same => ?_) fun other => .discard (.pure ?_)) loop))
  · rw [same]
    exact tidies_fold decides loop
  · have last : c = body := by
      rw [whole] at member
      rcases List.mem_pair.mp member with rfl | rfl
      · exact absurd rfl other
      · rfl
    subst last
    exact leaves_descend poised found (by simp) rfl (List.mem_of_getElem? first)
      (fun _ kept => .inl (waiting_of_taken poised found rfl rfl member kept)) fun _ => id

theorem tidies_doLoop {body : Nat}
    (found : frame.code.get? frame.current = some (.statement .doLoop))
    (whole : frame.code.children frame.current = [body, test]) :
    Tidies frame frame.Kept frame.Settled (doLoop host frame.current) (Move.Leaves frame) := by
  have first : frame.code.child frame.current 0 = some body := by rw [Outline.child, whole]; rfl
  have second : frame.code.child frame.current 1 = some test := by rw [Outline.child, whole]; rfl
  have decides := decides_last found rfl rfl (by rw [whole]; rfl)
  have loop := tidies_loopTest poised host found (.inr rfl) decides (List.mem_of_getElem? first)
  have down := leaves_down poised found (by simp) rfl (List.mem_of_getElem? first)
  refine .requiredChild first (.requiredChild second (.visitFolding poised (.pure down)
    (fun c member _ => .ite (fun same => .discard (.pure ?_)) fun other => ?_) loop))
  · subst same
    exact leaves_descend poised found (by simp) rfl (List.mem_of_getElem? second)
      (fun _ kept => .inl (waiting_of_taken poised found rfl rfl member kept)) fun _ => id
  · have last : c = test := by
      rw [whole] at member
      rcases List.mem_pair.mp member with rfl | rfl
      · exact absurd rfl other
      · rfl
    rw [last]
    exact tidies_fold decides loop

theorem tidies_conditional {left right : Nat}
    (found : frame.code.get? frame.current = some (.operation .conditional))
    (first : frame.code.child frame.current 0 = some test)
    (second : frame.code.child frame.current 1 = some left)
    (third : frame.code.child frame.current 2 = some right) :
    Tidies frame frame.Kept frame.Settled (conditional host frame.current)
      (Move.Leaves frame) := by
  have decides := decides_first found rfl rfl first
  have down {c i : Nat} (selected : frame.code.child frame.current i = some c) :=
    leaves_down poised found (by simp) rfl (List.mem_of_getElem? selected)
  have chosen : Tidies frame (Folding frame.code frame.current)
      (Convertible frame.code frame.current) (chooseOperand host frame.current test)
      (Move.Leaves frame) := by
    rw [chooseOperand_eq]
    refine tidies_decide poised found rfl rfl decides host fun truth => ?_
    cases truth with
    | true => exact .requiredChild second (.pure (down second))
    | false => exact .requiredChild third (.pure (down third))
  refine .requiredChild first (.visitFolding poised (.pure (down first)) (fun c member _ => ?_)
    chosen)
  refine .ite (fun same => ?_) fun _ => .take fun value => .pure
    (leaves_finish (fun _ => waiting_of_taken poised found rfl rfl member) fun _ => id)
  rw [same]
  exact tidies_fold decides chosen

theorem tidies_logical {o : Operation} {right : Nat}
    (found : frame.code.get? frame.current = some (.operation o))
    (which : o = .logicalAnd ∨ o = .logicalOr)
    (whole : frame.code.children frame.current = [test, right]) (stopsOn : Bool) :
    Tidies frame frame.Kept frame.Settled (logical host frame.current stopsOn)
      (Move.Leaves frame) := by
  have first : frame.code.child frame.current 0 = some test := by rw [Outline.child, whole]; rfl
  have second : frame.code.child frame.current 1 = some right := by rw [Outline.child, whole]; rfl
  have facts : (Node.operation o).gathers = false ∧ (Node.operation o).folds = true ∧
      (Node.operation o).foldsFirst = true ∧ o ≠ .functionLiteral := by
    rcases which with rfl | rfl
    · decide
    · decide
  obtain ⟨plain, folds, early, through⟩ := facts
  have decides := decides_first found folds early first
  have fold := tidies_foldLogical poised found plain rfl decides host (by simpa using through)
    (List.mem_of_getElem? second) stopsOn
  have down := leaves_down poised found (by simpa using through) (Node.free_of_plain plain)
    (List.mem_of_getElem? first)
  refine .requiredChild first (.requiredChild second (.visitFolding poised (.pure down)
    (fun c member _ => .ite (fun same => ?_) fun other => .take fun value => .pure
      (leaves_finish (fun k kept => ?_) fun _ => id)) fold))
  · rw [same]
    exact tidies_fold decides fold
  · have last : c = right := by
      rw [whole] at member
      rcases List.mem_pair.mp member with rfl | rfl
      · exact absurd rfl other
      · rfl
    subst last
    exact waiting_of_taken poised found plain rfl member kept

theorem tidies_unary {o : Operation} {op : UnaryOp}
    (found : frame.code.get? frame.current = some (.operation o)) (unary : o.unary? = some op)
    (whole : frame.code.children frame.current = [test]) :
    Tidies frame frame.Kept frame.Settled (Handler.unary host frame.current op)
      (Move.Leaves frame) := by
  have first : frame.code.child frame.current 0 = some test := by rw [Outline.child, whole]; rfl
  have facts : (Node.operation o).gathers = false ∧ (Node.operation o).folds = true ∧
      (Node.operation o).foldsFirst = false ∧ o ≠ .functionLiteral := by
    cases o <;> first | decide | cases unary
  obtain ⟨plain, folds, late, through⟩ := facts
  have decides := decides_last found folds late (by rw [whole]; rfl)
  have fold := tidies_foldUnary poised found plain rfl decides host op
  have down := leaves_down poised found (by simpa using through) (Node.free_of_plain plain)
    (List.mem_of_getElem? first)
  refine .requiredChild first (.visitFolding poised (.pure down) (fun c member _ => ?_) fold)
  rw [whole] at member
  exact tidies_fold (List.mem_singleton.mp member ▸ decides) fold

end Deciding

/-! ## Nodes that gather -/

/-- What is left when all children of a node that assigns nothing are finished. -/
theorem gathered_of_folding {node : Node} {k : Nat}
    (found : frame.code.get? frame.current = some node) (single : node.isSequence = false)
    (free : node.isAssignment = false) (folding : Folding frame.code frame.current k) :
    Waiting frame.code frame.current k ∨ k ∈ frame.code.children frame.current := by
  obtain ⟨root, rooted, -⟩ := poised.rooted
  rcases folding with waits | ⟨d, decides, met⟩
  · exact .inl waits
  · rcases met.of_gathers decides.mem found single with waits | ⟨e, member, residue⟩
    · exact .inl waits
    · rw [residue.eq_of_plain rooted member found free]
      exact .inr member

section Binary

variable {o : Operation} {op : BinaryOp} {left right : Nat}
  (found : frame.code.get? frame.current = some (.operation o)) (binary : o.binary? = some op)
  (whole : frame.code.children frame.current = [left, right]) (host : Host σ)
include found binary whole

theorem tidies_foldBinary :
    Tidies frame (Folding frame.code frame.current) (Convertible frame.code frame.current)
      (foldBinary host op left right) (Move.Leaves frame) := by
  have free : o.isAssignment = false := Operation.isAssignment_of_binary? binary
  have member {k : Nat} (convertible : Convertible frame.code frame.current k) :
      k ∈ frame.code.children frame.current := by
    rcases convertible.of_plain found free with decides | ⟨_, _, _, _, first⟩
    · exact decides.mem
    · exact List.mem_of_getElem? first
  have decides : Decides frame.code frame.current right :=
    decides_last found (by simp [Node.folds, binary])
      (by cases o <;> first | rfl | cases binary) (by rw [whole]; rfl)
  have applied : Tidies frame (Folding frame.code frame.current)
      (Convertible frame.code frame.current) (applyBinary host op left right)
      (Move.Leaves frame) := by
    refine .takeConverted fun x => .takeConverted fun y => .act fun result => .pure
      (leaves_finish (fun k kept => ?_) fun k kept => ?_)
    · obtain ⟨⟨kept, notLeft⟩, notRight⟩ := kept
      rcases gathered_of_folding poised found rfl free kept with waits | isChild
      · exact waits
      · rw [whole] at isChild
        rcases List.mem_pair.mp isChild with same | same
        · exact absurd same notLeft
        · exact absurd same notRight
    · obtain ⟨⟨kept, notLeft⟩, notRight⟩ := kept
      have isChild := member kept
      rw [whole] at isChild
      rcases List.mem_pair.mp isChild with same | same
      · exact notLeft same
      · exact notRight same
  intro l held
  rw [show (foldBinary host op left right).run l = _ from exec_foldBinary host op left right l]
  refine tidies_afterHooks (fun operand listed => ?_) applied l held
  split at listed
  · rcases List.mem_pair.mp listed with same | same
    · rw [same]
      exact .left found binary (by rw [Outline.child, whole]; rfl)
    · rw [same]
      exact .decider found free decides
  · cases listed

theorem tidies_binary :
    Tidies frame frame.Kept frame.Settled (Handler.binary host frame.current op)
      (Move.Leaves frame) := by
  obtain ⟨root, rooted, -⟩ := poised.rooted
  have first : frame.code.child frame.current 0 = some left := by rw [Outline.child, whole]; rfl
  have second : frame.code.child frame.current 1 = some right := by rw [Outline.child, whole]; rfl
  have facts : (Node.operation o).gathers = true ∧ (Node.operation o).folds = true ∧
      (Node.operation o).foldsFirst = false ∧ o ≠ .functionLiteral := by
    cases o <;> first | decide | cases binary
  obtain ⟨gathers, folds, late, through⟩ := facts
  have free : o.isAssignment = false := Operation.isAssignment_of_binary? binary
  have less : left < right := by
    have increase := rooted.children_increase frame.current
    rw [whole] at increase
    exact List.rel_of_pairwise_cons increase List.mem_cons_self
  have fold := tidies_foldBinary poised found binary whole host
  refine .requiredChild first (.requiredChild second (.visitFolding poised
    (.pure (leaves_down poised found (by simpa using through) free (List.mem_of_getElem? first)))
    (fun c member _ => .ite (fun same => .pure ?_) fun other => ?_) fold))
  · subst same
    exact leaves_descend poised found (by simpa using through) free (List.mem_of_getElem? second)
      (fun k met => met.next member found gathers less) fun _ => id
  · have last : c = right := by
      rw [whole] at member
      rcases List.mem_pair.mp member with same | same
      · exact absurd same other
      · exact same
    rw [last]
    exact tidies_fold (decides_last found folds late (by rw [whole]; rfl)) fold

end Binary

omit poised in
theorem tidies_takeAll (nodes : List Nat) :
    Tidies frame M C (takeAll nodes : Handler σ (List Value)) fun _ M' C' =>
      (∀ k, M' k → M k ∧ k ∉ nodes) ∧ ∀ k, C' k → C k := by
  induction nodes generalizing M with
  | nil => exact .pure ⟨fun k kept => ⟨kept, by simp⟩, fun _ => id⟩
  | cons node rest ih =>
    refine .take fun value => .bind ih fun values M' C' left => .pure ⟨fun k kept => ?_, left.2⟩
    obtain ⟨⟨kept, notNode⟩, notRest⟩ := left.1 k kept
    exact ⟨kept, by simp [notNode, notRest]⟩

omit poised in
theorem tidies_fillObject (id : Nat) (nodes : List Nat) (even : nodes.length % 2 = 0) :
    Tidies frame M C (fillObject id nodes : Handler σ Unit) fun _ M' C' =>
      (∀ k, M' k → M k ∧ k ∉ nodes) ∧ ∀ k, C' k → C k := by
  fun_induction fillObject (σ := σ) id nodes generalizing M with
  | case1 key value rest ih =>
    refine .readStore fun s => .take fun name => .take fun content => .readStore fun s' =>
      .setStore ((ih (by simp only [List.length_cons] at even; omega)).mono
        fun _ M' C' left => ⟨fun k kept => ?_, left.2⟩)
    obtain ⟨⟨⟨kept, notKey⟩, notValue⟩, notRest⟩ := left.1 k kept
    exact ⟨kept, by simp [notKey, notValue, notRest]⟩
  | case2 nodes other =>
    rcases nodes with _ | ⟨key, _ | ⟨value, rest⟩⟩
    · exact .pure ⟨fun k kept => ⟨kept, by simp⟩, fun k kept => kept⟩
    · cases even
    · exact (other key value rest rfl).elim

theorem tidies_objectLiteral
    (found : frame.code.get? frame.current = some (.operation .objectLiteral))
    (even : (frame.code.children frame.current).length % 2 = 0) :
    Tidies frame frame.Kept frame.Settled (objectLiteral frame.current : Handler σ Move)
      (Move.Leaves frame) := by
  obtain ⟨root, rooted, -⟩ := poised.rooted
  refine .bind (tidies_nextChild poised (by rw [found]; rfl) found rfl rfl)
    fun next M C left => ?_
  obtain ⟨gone, left⟩ := left
  cases next with
  | some c =>
    exact .pure (leaves_descend poised found (by simp) rfl left.1 left.2 gone)
  | none =>
    refine .readStore fun s => .setStore (.readCode (.bind (tidies_fillObject _ _ even)
      fun _ M' C' taken => .pure (leaves_finish (fun k kept => ?_)
        fun k kept => gone k (taken.2 k kept))))
    obtain ⟨kept, outside⟩ := taken.1 k kept
    rcases left k kept with waits | ⟨e, member, residue⟩
    · exact waits
    · rw [residue.eq_of_plain rooted member found rfl] at outside
      exact absurd member outside

theorem tidies_call {callee : Nat} {args : List Nat} (host : Host σ)
    (found : frame.code.get? frame.current = some (.operation .call))
    (whole : frame.code.children frame.current = callee :: args) :
    Tidies frame frame.Kept frame.Settled (Handler.call host frame.current)
      (Move.Leaves frame) := by
  obtain ⟨root, rooted, -⟩ := poised.rooted
  have promised : frame.code.child frame.current 0 = some callee := by
    rw [Outline.child, whole]
    rfl
  refine .requiredChild promised
    (.bind (tidies_nextChild poised (by rw [found]; rfl) found rfl rfl)
      fun next M C left => ?_)
  obtain ⟨gone, left⟩ := left
  cases next with
  | some c =>
    exact .pure (leaves_descend poised found (by simp) rfl left.1 left.2 gone)
  | none =>
    refine .readCode (.bind (tidies_takeAll _) fun values M' C' taken => .take fun function =>
      .readStore fun s => ?_)
    -- What the call and its arguments left has been taken, so only what is above still waits.
    have memo : ∀ k, M' k ∧ k ≠ callee → Waiting frame.code frame.current k := by
      rintro k ⟨kept, notCallee⟩
      obtain ⟨kept, notArg⟩ := taken.1 k kept
      rcases left k kept with waits | ⟨e, member, residue⟩
      · exact waits
      · rw [← residue.eq_of_plain rooted member found rfl, whole] at member
        rw [whole] at notArg
        rcases List.mem_cons.mp member with same | isArg
        · exact absurd same notCallee
        · exact absurd isArg notArg
    have converted : ∀ k, ¬ C' k := fun k kept => gone k (taken.2 k kept)
    split
    · exact .fault (by simp)
    · exact .act fun result => .pure (leaves_finish memo converted)
    · exact .closure fun closure => .pure ⟨found, memo, converted⟩

/-- A member that is written to leaves its base and its key, any other nothing. -/
theorem tidies_memberAccess {base key : Nat}
    (found : frame.code.get? frame.current = some (.operation .member))
    (whole : frame.code.children frame.current = [base, key]) :
    Tidies frame frame.Kept frame.Settled (memberAccess frame.current : Handler σ Move)
      (Move.Leaves frame) := by
  obtain ⟨root, rooted, -⟩ := poised.rooted
  have first : frame.code.child frame.current 0 = some base := by rw [Outline.child, whole]; rfl
  have second : frame.code.child frame.current 1 = some key := by rw [Outline.child, whole]; rfl
  have less : base < key := by
    have increase := rooted.children_increase frame.current
    rw [whole] at increase
    exact List.rel_of_pairwise_cons increase List.mem_cons_self
  refine .requiredChild first (.requiredChild second (.visit poised (by rw [found]; rfl)
    (.pure (leaves_down poised found (by simp) rfl (List.mem_of_getElem? first)))
    fun c member _ => .ite (fun same => .pure ?_) fun _ => .readCode (.ite (fun target => .pure
      ⟨fun k met => ?_, fun _ => id⟩) fun _ => ?_)))
  · subst same
    exact leaves_descend poised found (by simp) rfl (List.mem_of_getElem? second)
      (fun k met => met.next member found rfl less) fun _ => id
  · rcases met.of_gathers member found rfl with waits | ⟨e, isPart, residue⟩
    · exact .inl waits
    · rw [residue.eq_of_plain rooted isPart found rfl]
      exact .inr (.part target found isPart)
  · refine .take fun object => .readStore fun s => .take fun name => .readStore fun s' => ?_
    -- The values of the base and of the key have been taken.
    have memo : ∀ k, (Met frame.code frame.current c k ∧ k ≠ base) ∧ k ≠ key →
        Waiting frame.code frame.current k := by
      rintro k ⟨⟨met, notBase⟩, notKey⟩
      rcases met.of_gathers member found rfl with waits | ⟨e, isPart, residue⟩
      · exact waits
      · rw [← residue.eq_of_plain rooted isPart found rfl, whole] at isPart
        rcases List.mem_pair.mp isPart with same | same
        · exact absurd same notBase
        · exact absurd same notKey
    split
    · exact .setStore (.pure (leaves_finish memo fun _ => id))
    · exact .readStore fun s' => .fault (by simp)

/-! ## Assignments -/

omit poised in
theorem Tidies.takeOperand {operand : Option Nat} {g : Value → Handler σ β}
    (next : ∀ value, Tidies frame (fun k => M k ∧ operand ≠ some k)
      (fun k => C k ∧ operand ≠ some k) (g value) Q) :
    Tidies frame M C (Handler.takeOperand operand >>= g) Q := by
  cases operand with
  | none =>
    exact (next .undefined).weaken (fun k kept => ⟨kept, by simp⟩) fun k kept => ⟨kept, by simp⟩
  | some operand =>
    exact .takeConverted fun value => (next value).weaken
      (fun k kept => ⟨kept.1, by simpa using kept.2.symm⟩)
      fun k kept => ⟨kept.1, by simpa using kept.2.symm⟩

theorem target_cases {target : Nat} (member : target ∈ frame.code.children frame.current)
    (writable : Target frame.code target) :
    (∃ name, frame.code.get? target = some (.use name)) ∨
      frame.code.get? target = some (.operation .member) ∧
        ∃ base key, frame.code.children target = [base, key] := by
  obtain ⟨root, rooted, -⟩ := poised.rooted
  rcases writable with name | ⟨found, -⟩
  · exact .inl name
  · obtain ⟨node, parts, site⟩ := rooted.site (inside_of_child poised member)
    cases found.symm.trans site.get?
    have count := congrArg List.length site.children
    rw [List.length_map, List.length_map, Operation.length_of_fits (o := .member) site.fits rfl]
      at count
    obtain ⟨base, key, whole⟩ := List.length_eq_two.mp count
    exact .inr ⟨found, base, key, whole⟩

theorem tidies_resolveTarget {target : Nat}
    (member : target ∈ frame.code.children frame.current) (writable : Target frame.code target)
    (written : isTarget frame.code target = true) {g : Slot → Handler σ β}
    (next : ∀ slot, Tidies frame (fun k => M k ∧ ¬ Residue frame.code target k) C (g slot) Q) :
    Tidies frame M C (resolveTarget target >>= g) Q := by
  refine .bind (P := fun _ M' C' => (∀ k, M' k → M k ∧ ¬ Residue frame.code target k) ∧ C' = C)
    (.readCode ?_) fun slot M' C' left => ?_
  · rcases target_cases poised member writable with ⟨name, found⟩ | ⟨found, base, key, whole⟩
    · -- A name that is written to is not evaluated, so it left nothing.
      have empty {k : Nat} (residue : Residue frame.code target k) : False := by
        cases residue with
        | value evaluated => cases found.symm.trans (evaluated written)
        | part _ other => cases found.symm.trans other
      rw [found]
      refine .readFrame fun f => ?_
      split
      · exact .readStore fun s => .pure ⟨fun k kept => ⟨kept, empty⟩, rfl⟩
      · exact .fault (by simp)
    · have first : frame.code.child target 0 = some base := by rw [Outline.child, whole]; rfl
      have second : frame.code.child target 1 = some key := by rw [Outline.child, whole]; rfl
      rw [found]
      refine .discard (.requiredChild first (.take fun object => .readStore fun s =>
        .requiredChild second (.take fun name => ?_)))
      split
      · refine .pure ⟨fun k kept => ⟨kept.1.1.1, fun residue => ?_⟩, rfl⟩
        cases residue with
        | value => exact kept.1.1.2 rfl
        | part _ _ isPart =>
          rw [whole] at isPart
          rcases List.mem_pair.mp isPart with same | same
          · exact kept.1.2 same
          · exact kept.2 same
      · exact .readStore fun s' => .fault (by simp)
  · rw [left.2]
    exact (next slot).weaken left.1 fun _ => id

omit poised in
theorem exists_peekTarget {target : Nat} (writable : Target frame.code target) (l : Local σ)
    (same : l.frame.code = frame.code) :
    ∃ current, (peekTarget target).exec l = (.ok current, l) := by
  unfold peekTarget
  rcases writable with ⟨name, found⟩ | ⟨found, base, key, first, second⟩
  · simp only [exec_bind, exec_code, andThen_ok, same, found]
    exact ⟨_, rfl⟩
  · have child {i c : Nat} (promised : frame.code.child target i = some c) :
        (requiredChild target i : Handler σ Nat).exec l = (.ok c, l) := by
      simp only [requiredChild, exec_bind, exec_code, andThen_ok, same, promised, exec_pure]
    simp only [exec_bind, exec_code, andThen_ok, same, found, exec_frame, child first,
      child second, exec_store]
    exact ⟨_, rfl⟩

section Update

variable {o : Operation} {op : UpdateOp} {target : Nat} {operand : Option Nat}
  (found : frame.code.get? frame.current = some (.operation o)) (update : o.update? = some op)
  (whole : frame.code.children frame.current = target :: operand.toList)
  (writable : Target frame.code target) (host : Host σ) (givesOld : Bool)
include found update whole writable

omit poised found update writable in
theorem child_operand : frame.code.child frame.current 1 = operand := by
  rw [Outline.child, whole]
  cases operand with
  | none => rfl
  | some e => rfl

omit found update writable in
theorem firstChild_target : frame.code.firstChild frame.current = some target := by
  rw [Outline.firstChild_eq_head? _ _ (Nat.zero_lt_of_lt poised.inside), whole]
  rfl

omit found update writable in
theorem isTarget_operand {e : Nat} (selected : operand = some e) :
    isTarget frame.code e = false := by
  obtain ⟨root, rooted, -⟩ := poised.rooted
  have increase := rooted.children_increase frame.current
  rw [whole] at increase
  have later := List.rel_of_pairwise_cons increase (Option.mem_toList.mpr selected)
  have isChild : e ∈ frame.code.children frame.current := by simp [whole, selected]
  have other : (some target == some e) = false := by
    simpa using Nat.ne_of_lt later
  rw [isTarget_of_mem rooted isChild, firstChild_target poised whole, other, Bool.and_false]

omit update writable in
theorem residue_of_folding {k : Nat} (folding : Folding frame.code frame.current k) :
    Waiting frame.code frame.current k ∨ Residue frame.code target k ∨ operand = some k := by
  rcases folding with waits | ⟨d, decides, met⟩
  · exact .inl waits
  · rcases met.of_gathers decides.mem found rfl with waits | ⟨e, isPart, residue⟩
    · exact .inl waits
    · rw [whole] at isPart
      rcases List.mem_cons.mp isPart with rfl | isOperand
      · exact .inr (.inl residue)
      · have selected := Option.mem_toList.mp isOperand
        cases residue with
        | value => exact .inr (.inr selected)
        | part written =>
          rw [isTarget_operand poised whole selected] at written
          cases written

theorem tidies_foldUpdate :
    Tidies frame (Folding frame.code frame.current) (Convertible frame.code frame.current)
      (foldUpdate host op givesOld frame.current target operand) (Move.Leaves frame) := by
  obtain ⟨root, rooted, -⟩ := poised.rooted
  have assigns : (Node.operation o).isAssignment = true :=
    Operation.isAssignment_of_update? update
  have member : target ∈ frame.code.children frame.current := by simp [whole]
  have written : isTarget frame.code target = true := by
    rw [isTarget_of_mem rooted member, found, Option.any_some, assigns,
      firstChild_target poised whole]
    simp
  -- What the target, the operand and the hooks have left is taken before the write.
  have applied : Tidies frame (Folding frame.code frame.current)
      (Convertible frame.code frame.current)
      (applyUpdate host op givesOld frame.current target operand) (Move.Leaves frame) := by
    refine .takeOperand fun value => .readFrame fun f => .discardConverted
      (tidies_resolveTarget poised member writable written fun slot => .readStore fun s =>
        .act fun new => .readStore fun s' => .setStore (.pure (leaves_finish (fun k kept => ?_)
          fun k kept => ?_)))
    · rcases residue_of_folding poised found whole kept.1.1 with waits | residue | same
      · exact waits
      · exact absurd residue kept.2
      · exact absurd same kept.1.2
    · rcases kept.1.1.of_assigns found assigns with same | second
      · exact kept.2 same
      · exact kept.1.2 ((child_operand whole).symm.trans second)
  intro l held
  obtain ⟨current, peeks⟩ := exists_peekTarget writable l held.code
  rw [show (foldUpdate host op givesOld frame.current target operand).run l = _ from
    exec_foldUpdate op givesOld frame.current target operand l peeks]
  refine tidies_afterHooks (fun k listed => ?_) applied l held
  obtain ⟨entry, isOperand, rfl⟩ := List.mem_map.mp listed
  rcases mem_updateOperands isOperand with same | same
  · rw [same]
    exact .old found update
  · exact .operand found update ((child_operand whole).trans same)

/-- What is kept once the target or the operand of an update is done: the part that comes next
can be entered, or the node can fold. -/
abbrev Onward (frame : Frame) : Option Nat → (Nat → Prop) → (Nat → Prop) → Prop
  | some part, M, C => (Move.descend part).Leaves frame M C
  | none, M, C => (∀ k, M k → Folding frame.code frame.current k) ∧
    ∀ k, C k → Convertible frame.code frame.current k

theorem tidies_assignment :
    Tidies frame frame.Kept frame.Settled (assignment host frame.current op givesOld)
      (Move.Leaves frame) := by
  obtain ⟨root, rooted, -⟩ := poised.rooted
  have facts : (Node.operation o).gathers = true ∧ (Node.operation o).folds = true ∧
      (Node.operation o).foldsFirst = false ∧ o ≠ .functionLiteral := by
    cases o <;> first | decide | cases update
  obtain ⟨gathers, folds, late, through⟩ := facts
  have promised : frame.code.child frame.current 0 = some target := by
    rw [Outline.child, whole]
    rfl
  have increase := rooted.children_increase frame.current
  rw [whole] at increase
  have fold := tidies_foldUpdate poised found update whole writable host givesOld
  -- The right side is worked on while what the target left waits.
  have down {M : Nat → Prop} {e : Nat} (selected : operand = some e)
      (memo : ∀ k, M k → Waiting frame.code frame.current k ∨
        Beside frame.code frame.current e k) :
      (Move.descend e).Leaves frame M fun _ => False := by
    refine ⟨fun written => ?_, by simpa [found] using through, memo, fun _ => id⟩
    rw [isTarget_operand poised whole selected] at written
    cases written
  refine .requiredChild promised (.readCode ?_)
  rw [child_operand whole]
  refine .bind (P := Onward frame) ?_ fun next M C left => ?_
  · refine .visitFolding poised (.readCode (.ite (fun isMember => .pure ?_) fun _ => .pure ?_))
      (fun c member _ => .pure ?_) (.pure ⟨fun _ => id, fun _ => id⟩)
    · refine ⟨fun _ => ?_, by simpa [found] using through, fun _ => .inl, fun _ => id⟩
      rcases writable with ⟨name, isName⟩ | ⟨isMember', -⟩
      · rw [isName] at isMember
        cases isMember
      · exact isMember'
    · cases selected : operand with
      | none => exact ⟨fun k => .inl, fun _ => False.elim⟩
      | some e => exact down selected fun _ => .inl
    · have folding (last : (frame.code.children frame.current).getLast? = some c) :
          (∀ k, Met frame.code frame.current c k → Folding frame.code frame.current k) ∧
            ∀ k, False → Convertible frame.code frame.current k :=
        ⟨fun _ met => .inr ⟨c, decides_last found folds late last, met⟩, fun _ => False.elim⟩
      by_cases same : c = target
      · rw [if_pos same]
        subst same
        cases selected : operand with
        | none => exact folding (by rw [whole, selected]; rfl)
        | some e =>
          have less := List.rel_of_pairwise_cons increase (Option.mem_toList.mpr selected)
          exact down selected fun k met => met.next member found gathers less
      · rw [if_neg same]
        rw [whole] at member
        rcases List.mem_cons.mp member with isTarget | isOperand
        · exact absurd isTarget same
        · refine folding ?_
          rw [whole, Option.mem_toList.mp isOperand]
          rfl
  · cases next with
    | some part => exact .pure left
    | none => exact fold.weaken left.1 left.2

end Update

/-! ## All nodes -/

omit poised in
theorem tidies_kindName (node : Nat) :
    Tidies frame M C (kindName node : Handler σ String) fun _ M' C' => M' = M ∧ C' = C :=
  .readCode (.pure ⟨rfl, rfl⟩)

omit poised in
theorem tidies_parameterNames (params : List Nat) :
    Tidies frame M C (parameterNames params : Handler σ (List String)) fun _ M' C' =>
      M' = M ∧ C' = C := by
  induction params with
  | nil => exact .pure ⟨rfl, rfl⟩
  | cons param rest ih =>
    refine .readCode ?_
    cases literalName frame.code param with
    | some name => exact .after ih fun names => .pure ⟨rfl, rfl⟩
    | none => exact .after (tidies_kindName param) fun _ => .throw (by simp)

omit poised in
theorem tidies_checkBody (body : Nat) :
    Tidies frame M C (checkBody body : Handler σ Unit) fun _ M' C' => M' = M ∧ C' = C :=
  .readCode (.ite (fun _ => .pure ⟨rfl, rfl⟩) fun _ =>
    .after (tidies_kindName body) fun _ => .throw (by simp))

omit poised in
/-- At a node that is entered only, nothing but what waits is kept. -/
theorem tidies_entered {x : Handler σ β} {node : Node}
    (found : frame.code.get? frame.current = some node) (steady : node.folds = false)
    (outside : frame.previous ∉ frame.code.children frame.current)
    (next : Tidies frame (Waiting frame.code frame.current) (fun _ => False) x Q) :
    Tidies frame frame.Kept frame.Settled x Q := by
  have moved {k : Node} (other : frame.code.get? frame.current = some k) (folds : k.folds = true) :
      False := by
    cases found.symm.trans other
    rw [steady] at folds
    cases folds
  refine next.weaken (fun k kept => ?_) fun k settled => ?_
  · rcases kept with waits | ⟨member, -⟩ | ⟨-, waits | ⟨d, ⟨node, other, folds, -⟩, -⟩⟩
    · exact waits
    · exact absurd member outside
    · exact waits
    · exact (moved other folds).elim
  · obtain ⟨node, other, folds⟩ := settled.2.folds
    exact moved other folds

omit poised in
theorem tidies_functionLiteral
    (found : frame.code.get? frame.current = some (.operation .functionLiteral))
    (outside : frame.previous ∉ frame.code.children frame.current) :
    Tidies frame frame.Kept frame.Settled (functionLiteral frame.current : Handler σ Move)
      (Move.Leaves frame) := by
  refine tidies_entered found rfl outside (.readCode ?_)
  dsimp only
  split
  · exact .throw (by simp)
  · exact .after (tidies_checkBody _) fun _ => .readCode (.after (tidies_parameterNames _)
      fun names => .readCode (.readFrame fun f => .readStore fun s => .setStore
        (.pure (leaves_done _))))

omit poised in
theorem tidies_nameUse (name : String)
    (found : frame.code.get? frame.current = some (.use name))
    (outside : frame.previous ∉ frame.code.children frame.current) :
    Tidies frame frame.Kept frame.Settled (nameUse name : Handler σ Move) (Move.Leaves frame) := by
  refine tidies_entered found rfl outside (.readStore fun s => .readFrame fun f => ?_)
  split
  · exact .setStore (.pure (leaves_done _))
  · exact .fault (by simp)

variable (host : Host σ)

theorem tidies_statement {s : Statement} {parts : List Node}
    (site : Site frame.code frame.current (.statement s) parts) :
    Tidies frame frame.Kept frame.Settled (statement host frame.current s)
      (Move.Leaves frame) := by
  have lengths : (frame.code.children frame.current).length = parts.length := by
    simpa using congrArg List.length site.children
  have count := Statement.length_of_fits site.fits
  cases s with
  | unit => exact tidies_sequence poised site.get? rfl
  | block => exact tidies_sequence poised site.get? rfl
  | expression => exact tidies_passThrough poised site.get? rfl rfl rfl (by simp)
  | ifElse =>
    have first : ∃ c, frame.code.child frame.current 0 = some c :=
      ⟨_, List.getElem?_eq_getElem (by omega)⟩
    have second : ∃ c, frame.code.child frame.current 1 = some c :=
      ⟨_, List.getElem?_eq_getElem (by omega)⟩
    obtain ⟨c, first⟩ := first
    obtain ⟨b, second⟩ := second
    exact tidies_ifElse poised host site.get? first second
  | whileLoop =>
    obtain ⟨c, b, whole⟩ := List.length_eq_two.mp (lengths.trans count)
    exact tidies_whileLoop poised host site.get? whole
  | doLoop =>
    obtain ⟨b, c, whole⟩ := List.length_eq_two.mp (lengths.trans count)
    exact tidies_doLoop poised host site.get? whole
  | ret => exact tidies_returnValue poised site.get?
  | functionDeclaration =>
    obtain ⟨c, whole⟩ := List.length_eq_one_iff.mp (lengths.trans count)
    exact tidies_functionDeclaration poised site.get? (by rw [Outline.child, whole]; rfl)
  | breakOut | continueOn | forLoop | throw => exact .throw (by simp)

theorem tidies_construct {o : Operation} {parts : List Node}
    (site : Site frame.code frame.current (.operation o) parts)
    (outside : o = .functionLiteral → frame.previous ∉ frame.code.children frame.current) :
    Tidies frame frame.Kept frame.Settled (construct host frame.current o)
      (Move.Leaves frame) := by
  have lengths : (frame.code.children frame.current).length = parts.length := by
    simpa using congrArg List.length site.children
  have pair (arity : o.arity? = some 2) :
      ∃ l r, frame.code.children frame.current = [l, r] :=
    List.length_eq_two.mp (lengths.trans (Operation.length_of_fits site.fits arity))
  unfold construct
  split
  case h_1 => exact tidies_passThrough poised site.get? rfl rfl rfl (by simp)
  case h_2 =>
    have even := Operation.even_of_entriesFit site.fits
    exact tidies_objectLiteral poised site.get? (by rw [lengths]; exact even)
  case h_3 => exact tidies_functionLiteral site.get? (outside rfl)
  case h_4 =>
    obtain ⟨base, key, whole⟩ := pair rfl
    exact tidies_memberAccess poised site.get? whole
  case h_5 =>
    cases whole : frame.code.children frame.current with
    | nil =>
      rw [whole] at lengths
      rw [List.length_eq_zero_iff.mp lengths.symm] at site
      cases site.fits
    | cons callee args => exact tidies_call poised host site.get? whole
  case h_6 =>
    obtain ⟨left, right, whole⟩ := pair rfl
    exact tidies_logical poised host site.get? (.inl rfl) whole false
  case h_7 =>
    obtain ⟨left, right, whole⟩ := pair rfl
    exact tidies_logical poised host site.get? (.inr rfl) whole true
  case h_8 =>
    have count : (frame.code.children frame.current).length = 3 :=
      lengths.trans (Operation.length_of_fits (o := .conditional) site.fits rfl)
    obtain ⟨test, left, right, whole⟩ := List.length_eq_three.mp count
    exact tidies_conditional poised host site.get? (by rw [Outline.child, whole]; rfl)
      (by rw [Outline.child, whole]; rfl) (by rw [Outline.child, whole]; rfl)
  case h_9 => exact .throw (by simp)

theorem tidies_operation {o : Operation} {parts : List Node}
    (site : Site frame.code frame.current (.operation o) parts)
    (outside : o = .functionLiteral → frame.previous ∉ frame.code.children frame.current) :
    Tidies frame frame.Kept frame.Settled (operation host frame.current o)
      (Move.Leaves frame) := by
  have lengths : (frame.code.children frame.current).length = parts.length := by
    simpa using congrArg List.length site.children
  -- An operation works on two values, on one, on a slot, or in a way of its own.
  cases binary : o.binary? with
  | some op =>
    have count := Operation.length_of_fits site.fits (Operation.arity?_of_binary? binary)
    obtain ⟨left, right, whole⟩ := List.length_eq_two.mp (lengths.trans count)
    rw [operation_of_binary? host binary]
    exact tidies_binary poised site.get? binary whole host
  | none =>
  cases unary : o.unary? with
  | some op =>
    have count := Operation.length_of_fits site.fits (Operation.arity?_of_unary? unary)
    obtain ⟨operand, whole⟩ := List.length_eq_one_iff.mp (lengths.trans count)
    rw [operation_of_unary? host unary]
    exact tidies_unary poised host site.get? unary whole
  | none =>
  cases update : o.update? with
  | some op =>
    obtain ⟨node, rest, rfl, assignable⟩ :=
      Operation.assignable_of_fits site.fits (Operation.isAssignment_of_update? update)
    have few := Operation.length_of_update? update site.fits
    obtain ⟨target, first, member, found⟩ := site.child (i := 0) rfl
    have whole : frame.code.children frame.current =
        target :: (frame.code.child frame.current 1).toList := by
      rw [Outline.child] at first ⊢
      rw [← lengths] at few
      generalize frame.code.children frame.current = parts at first few ⊢
      rcases parts with _ | ⟨t, _ | ⟨e, _ | ⟨e', rest⟩⟩⟩
      · cases first
      · cases first
        rfl
      · cases first
        rfl
      · simp at few
    rw [operation_of_update? host update]
    exact tidies_assignment poised site.get? update whole
      (target_of_assignable poised member found assignable) host _
  | none =>
    rw [operation_of_none host binary unary update]
    exact tidies_construct poised host site outside

/-- The handler of every node leaves nothing behind but what waits where its move leads. -/
theorem tidies_node
    (outside : frame.code.get? frame.current = some (.operation .functionLiteral) →
      frame.previous ∉ frame.code.children frame.current) :
    Tidies frame frame.Kept frame.Settled (node host frame.current) (Move.Leaves frame) := by
  obtain ⟨root, rooted, -⟩ := poised.rooted
  obtain ⟨node, parts, site⟩ := rooted.site poised.inside
  have leaf (none : parts = []) : frame.previous ∉ frame.code.children frame.current := by
    have lengths := congrArg List.length site.children
    rw [none, List.length_map] at lengths
    rw [List.length_eq_zero_iff.mp lengths]
    simp
  refine .readCode ?_
  rw [site.get?]
  cases node with
  | statement s => exact tidies_statement poised host site
  | operation o =>
    exact tidies_operation poised host site fun same => outside (by rw [site.get?, same])
  | declare name => exact tidies_declaration poised site.get?
  | use name =>
    exact tidies_nameUse name site.get? (leaf (List.isEmpty_iff.mp site.fits))
  | literal value =>
    exact tidies_entered site.get? rfl (leaf (List.isEmpty_iff.mp site.fits))
      (.pure (leaves_done _))

end Node

end Handler

end StepScript
