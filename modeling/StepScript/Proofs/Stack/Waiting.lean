import StepScript.Proofs.Evaluator.Walk

/-! What waits while a node is worked on.

Which values a frame keeps is told by where its walk stands. `Residue n` are the
positions whose values a finished `n` leaves behind, `Beside n c` those that `n`
holds next to its child `c`: a sequence the value of the statement before, an
operation the residues of its earlier operands. `Waiting n` are those that all
nodes above `n` hold next to it. They lie before `n`, so the subtree of a node is
clear when it is entered.
-/

set_option autoImplicit false

namespace StepScript

/-! ## Positions of children -/

namespace Outline

variable {α : Type}

theorem inside_of_children (t : Outline α) {n c : Nat} (member : c ∈ t.children n) :
    n < t.size := by
  by_cases inside : n < t.size
  · exact inside
  · have absent : t.entries[n]? = none := List.getElem?_eq_none (Nat.le_of_not_lt inside)
    have leaf : t.isLeaf n = true := by simp [isLeaf, weight, absent]
    simp [children, firstChild, leaf] at member

theorem inside_of_get? (t : Outline α) {n : Nat} {value : α} (found : t.get? n = some value) :
    n < t.size := by
  obtain ⟨entry, present, -⟩ := Option.map_eq_some_iff.mp found
  exact (List.getElem?_eq_some_iff.mp present).1

theorem stop_of_nextSibling (t : Outline α) {n next : Nat} (follows : t.nextSibling n = some next) :
    t.stop n = next := by
  unfold nextSibling at follows
  unfold stop
  split at follows
  rename_i ends total whole
  rw [whole]
  split at follows
  · exact Option.some.inj follows
  · cases follows

end Outline

namespace Code.Rooted

variable {code : Code} {s : Statement} {n c e : Nat}

theorem lt_stop (rooted : code.Rooted s) (inside : n < code.size) : n < code.stop n := by
  obtain ⟨tree, rfl, -, -⟩ := rooted
  rw [Outline.size_ofRose] at inside
  obtain ⟨path, sub, -, found, rfl⟩ := Rose.exists_path inside
  rw [Outline.stop_place found]
  have := sub.size_pos
  omega

theorem child_bounds (rooted : code.Rooted s) (member : c ∈ code.children n) :
    n < c ∧ code.stop c ≤ code.stop n := by
  have inside := code.inside_of_children member
  obtain ⟨tree, rfl, -, -⟩ := rooted
  rw [Outline.size_ofRose] at inside
  obtain ⟨path, sub, -, found, rfl⟩ := Rose.exists_path inside
  obtain ⟨i, child, below, rfl⟩ := Outline.mem_children_place found member
  have selected : sub.children[i]? = some child := by rw [← Rose.at?_snoc found, below]
  have whole := Rose.forestSize_split selected
  rw [Outline.stop_place below, Outline.stop_place found, Rose.place_snoc found, Rose.size_eq sub]
  omega

theorem lt_of_parent (rooted : code.Rooted s) {a : Nat} (inside : c < code.size)
    (above : code.parent c = some a) : a < c := by
  have inner : c ≠ 0 := by
    rintro rfl
    cases above
  obtain ⟨parent, same, -, member⟩ := rooted.exists_parent inside inner
  cases above.symm.trans same
  exact (rooted.child_bounds member).1

theorem stop_le_of_lt (rooted : code.Rooted s) (earlier : e ∈ code.children n)
    (later : c ∈ code.children n) (less : e < c) : code.stop e ≤ c := by
  have inside := code.inside_of_children earlier
  obtain ⟨tree, rfl, -, -⟩ := rooted
  rw [Outline.size_ofRose] at inside
  obtain ⟨path, sub, -, found, rfl⟩ := Rose.exists_path inside
  obtain ⟨i, first, firstFound, rfl⟩ := Outline.mem_children_place found earlier
  obtain ⟨j, second, secondFound, rfl⟩ := Outline.mem_children_place found later
  have selected : sub.children[i]? = some first := by rw [← Rose.at?_snoc found, firstFound]
  rw [Outline.stop_place firstFound]
  rw [Rose.place_snoc found, Rose.place_snoc found] at less ⊢
  rcases Nat.lt_or_ge i j with before | after
  · -- The trees in front of the later child contain the earlier one.
    have taken : (sub.children.take j)[i]? = some first := by
      rw [List.getElem?_take_of_lt before, selected]
    have whole := Rose.forestSize_split taken
    rw [List.take_take, Nat.min_eq_left (Nat.le_of_lt before)] at whole
    omega
  · -- Otherwise the trees in front of the later child would be fewer.
    have prefixed : sub.children.take j ++ (sub.children.take i).drop j = sub.children.take i := by
      conv => lhs; lhs; rw [← Nat.min_eq_left after, ← List.take_take]
      exact List.take_append_drop j _
    have whole := Rose.forestSize_append (sub.children.take j) ((sub.children.take i).drop j)
    rw [prefixed] at whole
    omega

theorem children_increase (rooted : code.Rooted s) (n : Nat) :
    (code.children n).Pairwise (· < ·) := by
  by_cases inside : n < code.size
  · obtain ⟨tree, rfl, -, -⟩ := rooted
    rw [Outline.size_ofRose] at inside
    obtain ⟨path, sub, -, found, rfl⟩ := Rose.exists_path inside
    rw [Outline.children_place found, Rose.childPaths, List.map_map]
    refine List.pairwise_map.mpr
      ((List.pairwise_lt_range).imp_of_mem fun {i j} first second less => ?_)
    have bound := List.mem_range.mp first
    have selected : (sub.children.take j)[i]? = some sub.children[i] := by
      rw [List.getElem?_take_of_lt less, List.getElem?_eq_getElem bound]
    have whole := Rose.forestSize_split selected
    rw [List.take_take, Nat.min_eq_left (Nat.le_of_lt less)] at whole
    have := sub.children[i].size_pos
    simp only [Function.comp_apply, Rose.place_snoc found]
    omega
  · cases whole : code.children n with
    | nil => exact .nil
    | cons c rest => exact absurd (code.inside_of_children (whole ▸ List.mem_cons_self)) inside

theorem lt_of_nextSibling (rooted : code.Rooted s) {next : Nat} (member : c ∈ code.children n)
    (follows : code.nextSibling c = some next) : c < next := by
  rw [← code.stop_of_nextSibling follows]
  exact rooted.lt_stop (rooted.inside_of_mem (code.inside_of_children member) member)

end Code.Rooted

/-! ## Kinds of nodes -/

namespace Node

def gathers : Node → Bool
  | operation o =>
    o.binary?.isSome || o.isAssignment || o == .objectLiteral || o == .call || o == .member
  | _ => false

def isSequence : Node → Bool
  | statement s => s == .unit || s == .block
  | _ => false

def foldsFirst : Node → Bool
  | statement s => s == .ifElse || s == .whileLoop
  | operation o => o == .logicalAnd || o == .logicalOr || o == .conditional
  | _ => false

end Node

theorem Node.free_of_plain {node : Node} (plain : node.gathers = false) :
    node.isAssignment = false := by
  cases node with
  | operation o =>
    simp only [Node.gathers, Bool.or_eq_false_iff] at plain
    exact plain.1.1.1.2
  | declare | use | statement | literal => rfl

/-! ## Positions with values -/

section Positions

variable (code : Code)

/-- A name that is written to is not evaluated; all else is. -/
def Evaluated (n : Nat) : Prop :=
  Handler.isTarget code n = true → code.get? n = some (.operation .member)

/-- A finished node leaves its value, and a member that is written to also its
base and its key. -/
inductive Residue (n : Nat) : Nat → Prop where
  | value (evaluated : Evaluated code n) : Residue n n
  | part {k : Nat} (target : Handler.isTarget code n = true)
    (found : code.get? n = some (.operation .member)) (member : k ∈ code.children n) : Residue n k

inductive Beside (n c : Nat) : Nat → Prop where
  | last {node : Node} (found : code.get? n = some node) (sequence : node.isSequence = true) :
    Beside n c n
  | earlier {node : Node} {e k : Nat} (found : code.get? n = some node)
    (gathers : node.gathers = true) (member : e ∈ code.children n) (before : e < c)
    (residue : Residue code e k) : Beside n c k

/-- What all nodes above `n` hold while `n` is worked on. -/
inductive Waiting : Nat → Nat → Prop where
  | beside {a n k : Nat} (member : n ∈ code.children a) (held : Beside code a n k) : Waiting n k
  | above {a n k : Nat} (member : n ∈ code.children a) (waits : Waiting a k) : Waiting n k

def Met (n c k : Nat) : Prop :=
  Waiting code n k ∨ Beside code n c k ∨ Residue code c k

def Decides (n c : Nat) : Prop :=
  ∃ node, code.get? n = some node ∧ node.folds = true ∧
    (if node.foldsFirst then code.child n 0 else (code.children n).getLast?) = some c

/-- What a hook may be asked to convert for `n`: the decider of a node that folds, but also the left
operand of a binary operator; for an assignment its operand and, under the
assignment itself, the old value. -/
inductive Convertible (n : Nat) : Nat → Prop where
  | decider {node : Node} {k : Nat} (found : code.get? n = some node)
    (plain : node.isAssignment = false) (decides : Decides code n k) : Convertible n k
  | left {o : Operation} {op : BinaryOp} {k : Nat} (found : code.get? n = some (.operation o))
    (binary : o.binary? = some op) (first : code.child n 0 = some k) : Convertible n k
  | old {o : Operation} {op : UpdateOp} (found : code.get? n = some (.operation o))
    (update : o.update? = some op) : Convertible n n
  | operand {o : Operation} {op : UpdateOp} {k : Nat} (found : code.get? n = some (.operation o))
    (update : o.update? = some op) (second : code.child n 1 = some k) : Convertible n k

/-- The walk gets to `n`: it enters neither function literals nor names that are
written to. -/
inductive Reached : Nat → Prop where
  | root : Reached 0
  | child {a n : Nat} (reached : Reached a) (member : n ∈ code.children a)
    (through : code.get? a ≠ some (.operation .functionLiteral)) (evaluated : Evaluated code n) :
    Reached n

end Positions

/-! ## Where they lie -/

theorem Decides.unique {code : Code} {n c d : Nat} (decides : Decides code n c)
    (other : Decides code n d) : c = d := by
  obtain ⟨node, found, -, chosen⟩ := decides
  obtain ⟨node', found', -, chosen'⟩ := other
  cases found.symm.trans found'
  exact Option.some.inj (chosen.symm.trans chosen')

theorem Decides.mem {code : Code} {n c : Nat} (decides : Decides code n c) :
    c ∈ code.children n := by
  obtain ⟨node, found, -, chosen⟩ := decides
  split at chosen
  · exact List.mem_of_getElem? chosen
  · exact List.mem_of_getLast? chosen

theorem Convertible.folds {code : Code} {n k : Nat} (convertible : Convertible code n k) :
    ∃ node, code.get? n = some node ∧ node.folds = true := by
  cases convertible with
  | decider _ _ decides =>
    obtain ⟨node, found, folds, -⟩ := decides
    exact ⟨node, found, folds⟩
  | left found binary => exact ⟨_, found, by simp [Node.folds, binary]⟩
  | old found update => exact ⟨_, found, by simp [Node.folds, update]⟩
  | operand found update => exact ⟨_, found, by simp [Node.folds, update]⟩

theorem Convertible.of_plain {code : Code} {node : Node} {n k : Nat}
    (convertible : Convertible code n k) (found : code.get? n = some node)
    (plain : node.isAssignment = false) :
    Decides code n k ∨
      ∃ o op, node = .operation o ∧ o.binary? = some op ∧ code.child n 0 = some k := by
  cases convertible with
  | decider _ _ decides => exact .inl decides
  | left other binary first =>
    cases found.symm.trans other
    exact .inr ⟨_, _, rfl, binary, first⟩
  | old other update | operand other update =>
    cases found.symm.trans other
    rw [Node.isAssignment, Operation.isAssignment_of_update? update] at plain
    cases plain

theorem Convertible.of_assigns {code : Code} {node : Node} {n k : Nat}
    (convertible : Convertible code n k) (found : code.get? n = some node)
    (assigns : node.isAssignment = true) : k = n ∨ code.child n 1 = some k := by
  cases convertible with
  | decider other plain =>
    cases found.symm.trans other
    rw [assigns] at plain
    cases plain
  | left other binary =>
    cases found.symm.trans other
    rw [Node.isAssignment, Operation.isAssignment_of_binary? binary] at assigns
    cases assigns
  | old => exact .inl rfl
  | operand _ _ second => exact .inr second

section Rooted

variable {code : Code} {s : Statement} (rooted : code.Rooted s) {a n c k : Nat}
include rooted

theorem isTarget_of_mem (member : c ∈ code.children n) :
    Handler.isTarget code c =
      ((code.get? n).any Node.isAssignment && code.firstChild n == some c) := by
  unfold Handler.isTarget
  rw [rooted.parent_of_mem (code.inside_of_children member) member]
  dsimp only
  cases code.get? n with
  | none => rfl
  | some node => cases node <;> rfl

theorem evaluated_of_plain {node : Node} (member : c ∈ code.children n)
    (found : code.get? n = some node) (plain : node.isAssignment = false) : Evaluated code c := by
  intro target
  rw [isTarget_of_mem rooted member, found, Option.any_some, plain] at target
  cases target

theorem Residue.eq_of_plain {node : Node} (residue : Residue code c k)
    (member : c ∈ code.children n) (found : code.get? n = some node)
    (plain : node.isAssignment = false) : k = c := by
  cases residue with
  | value => rfl
  | part target =>
    rw [isTarget_of_mem rooted member, found, Option.any_some, plain] at target
    cases target

theorem Residue.bounds (residue : Residue code n k) (inside : n < code.size) :
    n ≤ k ∧ k < code.stop n := by
  cases residue with
  | value => exact ⟨Nat.le_refl n, rooted.lt_stop inside⟩
  | part target found member =>
    have bounds := rooted.child_bounds member
    have later := rooted.lt_stop (rooted.inside_of_mem inside member)
    omega

theorem Beside.lt (held : Beside code n c k) (member : c ∈ code.children n) : k < c := by
  cases held with
  | last => exact (rooted.child_bounds member).1
  | earlier _ _ sibling before residue =>
    have inside := rooted.inside_of_mem (code.inside_of_children sibling) sibling
    have ends := rooted.stop_le_of_lt sibling member before
    have := (residue.bounds rooted inside).2
    omega

theorem Waiting.lt (waits : Waiting code n k) : k < n := by
  induction waits with
  | beside member held => exact held.lt rooted member
  | above member _ before => exact Nat.lt_trans before (rooted.child_bounds member).1

theorem Waiting.parent (waits : Waiting code n k) (member : n ∈ code.children a) :
    Waiting code a k ∨ Beside code a n k := by
  have above {b : Nat} (other : n ∈ code.children b) : b = a :=
    Option.some.inj ((rooted.parent_of_mem (code.inside_of_children other) other).symm.trans
      (rooted.parent_of_mem (code.inside_of_children member) member))
  cases waits with
  | beside other held =>
    cases above other
    exact .inr held
  | above other waits =>
    cases above other
    exact .inl waits

theorem Reached.parent (reached : Reached code n) (member : n ∈ code.children a) :
    Reached code a ∧ code.get? a ≠ some (.operation .functionLiteral) := by
  have parent := rooted.parent_of_mem (code.inside_of_children member) member
  cases reached with
  | root =>
    have := (rooted.child_bounds member).1
    omega
  | child reached other through _ =>
    have same := (rooted.parent_of_mem (code.inside_of_children other) other).symm.trans parent
    cases same
    exact ⟨reached, through⟩

omit rooted in
theorem Reached.evaluated (reached : Reached code n) : Evaluated code n := by
  cases reached with
  | root =>
    intro target
    cases target
  | child _ _ _ evaluated => exact evaluated

theorem Met.of_plain {node : Node} (met : Met code n c k) (member : c ∈ code.children n)
    (found : code.get? n = some node) (plain : node.gathers = false)
    (single : node.isSequence = false) : Waiting code n k ∨ k = c := by
  rcases met with waits | held | residue
  · exact .inl waits
  · cases held with
    | last other sequence =>
      cases found.symm.trans other
      rw [single] at sequence
      cases sequence
    | earlier other gathers =>
      cases found.symm.trans other
      rw [plain] at gathers
      cases gathers
  · exact .inr (residue.eq_of_plain rooted member found (Node.free_of_plain plain))

omit rooted in
theorem Met.of_gathers {node : Node} (met : Met code n c k) (member : c ∈ code.children n)
    (found : code.get? n = some node) (single : node.isSequence = false) :
    Waiting code n k ∨ ∃ e ∈ code.children n, Residue code e k := by
  rcases met with waits | held | residue
  · exact .inl waits
  · cases held with
    | last other sequence =>
      cases found.symm.trans other
      rw [single] at sequence
      cases sequence
    | earlier _ _ sibling _ residue => exact .inr ⟨_, sibling, residue⟩
  · exact .inr ⟨c, member, residue⟩

omit rooted in
/-- What waits after one child waits while the next one is worked on. -/
theorem Met.next {node : Node} {next : Nat} (met : Met code n c k) (member : c ∈ code.children n)
    (found : code.get? n = some node) (gathers : node.gathers = true)
    (follows : c < next) : Waiting code n k ∨ Beside code n next k := by
  rcases met with waits | held | residue
  · exact .inl waits
  · cases held with
    | last other sequence => exact .inr (.last other sequence)
    | earlier other gathers sibling before residue =>
      exact .inr (.earlier other gathers sibling (Nat.lt_trans before follows) residue)
  · exact .inr (.earlier found gathers member follows residue)

end Rooted

end StepScript
