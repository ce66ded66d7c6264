import StepScript.Proofs.Outline.Deep

/-! Questions with weights of 32 bits.

Whatever is asked about an outline, an answer that is found with 32 bits is the one that
weights of any size give, and for a shallow outline there always is one. Both are shown
at once: all questions come down to sums along the outline, and what holds of the answers
to these goes along with the steps from there.
-/

set_option autoImplicit false

namespace StepScript.Outline

variable {α : Type}

structure Standard where
  Meets : {β : Type} → Option β → β → Prop
  some {β : Type} (right : β) : Meets (.some right) right
  map {β γ : Type} {answer : Option β} {right : β} (f : β → γ) :
    Meets answer right → Meets (answer.map f) (f right)
  bind {β γ : Type} {answer : Option β} {right : β} {next : β → Option γ} {result : γ} :
    Meets answer right → Meets (next right) result → Meets (answer.bind next) result

namespace Standard

/-- No answer is wrong. -/
def sound : Standard where
  Meets := Sound
  some := .some
  map f first := first.map f
  bind := .bind

/-- There is an answer, and it is right. -/
def exact : Standard where
  Meets answer right := answer = .some right
  some _ := rfl
  map f first := by rw [first, Option.map_some]
  bind first later := by rw [first, Option.bind_some, later]

end Standard

/-- Every question about a node that takes sums of 32 bits is answered up to the standard. -/
structure Responds (standard : Standard) (t : Outline α) (node : Nat) : Prop where
  parent : standard.Meets (Bounded.parent t node) (t.parent node)
  lastChild : standard.Meets (Bounded.lastChild t node) (t.lastChild node)
  nextSibling : standard.Meets (Bounded.nextSibling t node) (t.nextSibling node)
  prevSibling : standard.Meets (Bounded.prevSibling t node) (t.prevSibling node)
  children : standard.Meets (Bounded.children t node) (t.children node)
  child (position : Nat) : standard.Meets (Bounded.child t node position) (t.child node position)
  childCount : standard.Meets (Bounded.childCount t node) (t.childCount node)
  depth : standard.Meets (Bounded.depth t node) (t.depth node)
  stop : standard.Meets (Bounded.stop t node) (t.stop node)
  deepSize : standard.Meets (Bounded.deepSize t node) (t.deepSize node)
  deepWeight : standard.Meets (Bounded.deepWeight t node) (t.deepWeight node)
  contains (other : Nat) : standard.Meets (Bounded.contains t node other) (t.contains node other)

/-! ## From sums to answers -/

theorem one_le_extent (entry : Entry α) (rest : List (Entry α)) (sum : Int) :
    1 ≤ (extent (entry :: rest) sum).1 := by
  rw [extent]
  split
  · exact Nat.le_refl 1
  · exact Nat.le_add_left 1 _

theorem bounds_of_nextSibling {t : Outline α} {node next : Nat} (inside : node < t.size)
    (found : t.nextSibling node = some next) : node < next ∧ next < t.size := by
  have long : 1 ≤ (extent (t.entries.drop node) 0).1 := by
    rw [List.drop_eq_getElem_cons inside]
    exact one_le_extent _ _ _
  obtain ⟨⟨fits, -⟩, same⟩ := Option.ite_none_right_eq_some.mp found
  cases same
  refine ⟨?_, fits⟩
  show node < node + (extent (t.entries.drop node) 0).1
  omega

section

variable {standard : Standard} {t : Outline α}
  (span : ∀ node, standard.Meets (Bounded.span t node) (t.span node))
include span

theorem meets_stop (node : Nat) : standard.Meets (Bounded.stop t node) (t.stop node) :=
  standard.map _ (span node)

theorem meets_nextSibling (node : Nat) :
    standard.Meets (Bounded.nextSibling t node) (t.nextSibling node) :=
  standard.map _ (span node)

theorem meets_siblingsFrom (limit node : Nat) :
    standard.Meets (Bounded.siblingsFrom t limit node) (t.siblingsFrom limit node) := by
  induction limit generalizing node with
  | zero => exact standard.some []
  | succ limit ih =>
    rw [siblingsFrom]
    refine standard.bind (meets_nextSibling span node) ?_
    cases t.nextSibling node with
    | none => exact standard.some [node]
    | some next => exact standard.map _ (ih next)

/-- What is found one by one is what the list of all siblings holds at that position. -/
theorem meets_siblingAt {limit node : Nat} (position : Nat) (inside : node < t.size)
    (enough : t.size ≤ node + limit) :
    standard.Meets (Bounded.siblingAt t position (some node))
      (t.siblingsFrom limit node)[position]? := by
  induction limit generalizing node position with
  | zero => omega
  | succ limit ih =>
    rw [siblingsFrom]
    cases position with
    | zero => exact standard.map (fun _ => some node) (meets_nextSibling span node)
    | succ position =>
      rw [List.getElem?_cons_succ]
      refine standard.bind (meets_nextSibling span node) ?_
      cases found : t.nextSibling node with
      | none =>
        cases position with
        | zero => exact standard.some none
        | succ position => exact standard.some none
      | some next =>
        obtain ⟨behind, inside⟩ := bounds_of_nextSibling inside found
        exact ih position inside (by omega)

theorem meets_children (node : Nat) :
    standard.Meets (Bounded.children t node) (t.children node) := by
  rw [Bounded.children, children]
  cases t.firstChild node with
  | none => exact standard.some []
  | some first => exact meets_siblingsFrom span _ first

theorem meets_child {node : Nat} (below : t.isLeaf node = false → node + 1 < t.size)
    (position : Nat) : standard.Meets (Bounded.child t node position) (t.child node position) := by
  rw [Bounded.child, child, children, firstChild]
  cases leaf : t.isLeaf node with
  | true =>
    cases position with
    | zero => exact standard.some none
    | succ position => exact standard.some none
  | false => exact meets_siblingAt span position (below leaf) (by omega)

theorem responds_of_sums {node : Nat} (below : t.isLeaf node = false → node + 1 < t.size)
    (parent : standard.Meets (Bounded.parent t node) (t.parent node))
    (prevSibling : standard.Meets (Bounded.prevSibling t node) (t.prevSibling node))
    (depth : standard.Meets (Bounded.depth t node) (t.depth node)) :
    Responds standard t node where
  parent := parent
  lastChild := standard.map _ (meets_children span node)
  nextSibling := meets_nextSibling span node
  prevSibling := prevSibling
  children := meets_children span node
  child := meets_child span below
  childCount := standard.map _ (meets_children span node)
  depth := depth
  stop := meets_stop span node
  deepSize := standard.map (· - node) (meets_stop span node)
  deepWeight := standard.map _ (span node)
  contains other := by
    rw [Bounded.contains, contains]
    split
    case isTrue before =>
      rw [decide_eq_true before, Bool.true_and]
      exact standard.map (fun stop => decide (other < stop)) (meets_stop span node)
    case isFalse behind =>
      rw [decide_eq_false behind, Bool.false_and]
      exact standard.some false

end

/-! ## Sums -/

namespace Bounded

variable {entries : List (Entry α)} {sum : Int}

theorem sound_extent : Sound (extent entries sum) (Outline.extent entries sum) := by
  induction entries generalizing sum with
  | nil => exact .some _
  | cons entry rest ih =>
    rw [extent, Outline.extent]
    refine (Sound.fit _).bind ?_
    split
    · exact .some _
    · exact ih.map _

theorem sound_span (t : Outline α) (node : Nat) : Sound (span t node) (t.span node) :=
  sound_extent.map _

theorem sound_parentAmong : Sound (parentAmong entries sum) (Outline.parentAmong entries sum) := by
  induction entries generalizing sum with
  | nil => exact .some _
  | cons entry before ih =>
    rw [parentAmong, Outline.parentAmong]
    refine (Sound.fit _).bind ?_
    split
    · exact .some _
    · exact ih

theorem sound_siblingAmong :
    Sound (siblingAmong entries sum) (Outline.siblingAmong entries sum) := by
  induction entries generalizing sum with
  | nil => exact .some _
  | cons entry before ih =>
    rw [siblingAmong, Outline.siblingAmong]
    refine (Sound.fit _).bind ?_
    split
    · exact .some _
    · split
      · exact .some _
      · exact ih

end Bounded

theorem responds_sound {t : Outline α} {node : Nat}
    (below : t.isLeaf node = false → node + 1 < t.size) : Responds .sound t node :=
  responds_of_sums (Bounded.sound_span t) below Bounded.sound_parentAmong
    Bounded.sound_siblingAmong fun _ found => (Bounded.depth_eq_some found).1

theorem Answered.responds {t : Outline α} {node : Nat} (answered : t.Answered)
    (below : t.isLeaf node = false → node + 1 < t.size) : Responds .exact t node :=
  responds_of_sums answered.span below (answered.parent node)
    (answered.prevSibling node) (answered.depth node)

/-! ## All questions together -/

open Rose

theorem succ_lt_size_of_inner {t : Outline α} (grown : t.Grown) {node : Nat}
    (inside : node < t.size) (inner : t.isLeaf node = false) : node + 1 < t.size := by
  obtain ⟨tree, rfl⟩ := grown
  obtain ⟨path, sub, -, found, rfl⟩ := exists_path (size_ofRose tree ▸ inside)
  have fits := place_add_size_le found
  rw [isLeaf_place found] at inner
  rw [size_ofRose]
  obtain ⟨value, children⟩ := sub
  cases children with
  | nil => cases inner
  | cons first others =>
    have := first.size_pos
    simp only [Rose.size, forestSize] at fits
    omega

/-- The sum of the weights of the stem does not fit. -/
theorem unanswered_fork (value : α) {n : Nat} (many : 2147483647 ≤ n) :
    let deep := ofRose (fork value n)
    deep.depth (n + 1) = n + 1 ∧ Bounded.depth deep (n + 1) = none ∧
      deep.stop 0 = n + 3 ∧ Bounded.stop deep 0 = none := by
  intro deep
  have root : (fork value n).at? [] = some (fork value n) := rfl
  have whole : deep.stop 0 = 0 + (fork value n).size := stop_place root
  have same : deep = spine value (n + 1) 1 [⟨-2, value⟩] := ofRose_fork value n
  have room : deep.size = n + 3 := size_fork value n
  rw [← size_ofRose, room] at whole
  refine ⟨?_, ?_, by omega, ?_⟩
  · rw [same, depth_spine]
  · rw [same, depth_spine_bounded (by omega)]
  · rw [same, Bounded.stop, span_spine (by omega)]
    rfl

/-- Every position of the outline of a tree is the place of exactly one node of the tree, and the
outline answers there as the tree does. With 32 bits it gives no other answer, and it gives one to
every question exactly if it is shallow. Trees that fit need not be: of a fork whose weights all
fit, and which has room, the end of the stem has no depth and the subtree of the root no end. -/
theorem charted_ofRose (tree : Rose α) (value : α) :
    (∀ n, n < (ofRose tree).size ↔
      ∃ path sub, tree.at? path = some sub ∧ tree.place path = n) ∧
    (∀ path sub, tree.at? path = some sub →
      (∀ other item, tree.at? other = some item → tree.place other = tree.place path →
        other = path) ∧
      Charted (ofRose tree) (tree.place path) tree path sub ∧
      Responds .sound (ofRose tree) (tree.place path)) ∧
    ((∀ n < (ofRose tree).size, Responds .exact (ofRose tree) n) ↔ (ofRose tree).Shallow) ∧
    ∀ n, 2147483647 ≤ n → n ≤ 2147483648 →
      let deep := ofRose (fork value n)
      deep.size ≤ capacity ∧ deep.Narrow ∧
        deep.depth (n + 1) = n + 1 ∧ Bounded.depth deep (n + 1) = none ∧
        deep.stop 0 = n + 3 ∧ Bounded.stop deep 0 = none := by
  have grown : (ofRose tree).Grown := ⟨tree, rfl⟩
  refine ⟨lt_size_iff tree, fun path sub found => ⟨fun other item otherFound same => ?_,
    charted_place found, ?_⟩, ⟨fun responds n inside => ?_, fun shallow n inside => ?_⟩,
    fun n many few => ⟨size_fork_le value n few, narrow_fork few, unanswered_fork value many⟩⟩
  · exact place_injective otherFound found same
  · have inside : tree.place path < (ofRose tree).size := by
      rw [size_ofRose]
      exact place_lt_size found
    exact responds_sound (succ_lt_size_of_inner grown inside)
  · exact (Bounded.depth_eq_some (responds n inside).depth).2
  · exact (shallow.answered grown).responds (succ_lt_size_of_inner grown inside)

theorem charted_ofRose_second_child :
    let tree : Rose Char := .node 'a' [.leaf 'b', .node 'c' [.leaf 'd']]
    tree.at? [1] = some (.node 'c' [.leaf 'd']) ∧
      Charted (ofRose tree) 2 tree [1] (.node 'c' [.leaf 'd']) ∧
      Responds .exact (ofRose tree) 2 ∧
      Bounded.depth (ofRose (fork 'a' 2147483648)) 2147483649 = none := by
  intro tree
  obtain ⟨-, nodes, responds, deep⟩ := charted_ofRose tree 'a'
  have shallow : (ofRose tree).Shallow := by decide
  exact ⟨rfl, (nodes [1] _ rfl).2.1, responds.mpr shallow 2 (by decide),
    (deep 2147483648 (by decide) (Nat.le_refl _)).2.2.2.1⟩

end StepScript.Outline
