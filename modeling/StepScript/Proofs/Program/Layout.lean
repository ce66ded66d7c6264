import StepScript.Proofs.Outline.Editing
import StepScript.Proofs.Program.Shape

/-! Program code by position.

The machine meets a node by its position. A `Site` is what the shape of the code
says about a position: the node there, and the nodes of its children in order.
-/

set_option autoImplicit false

namespace StepScript

/-- At `n` the code has `node`, and `parts` are the nodes of its children. -/
structure Site (code : Code) (n : Nat) (node : Node) (parts : List Node) : Prop where
  get? : code.get? n = some node
  children : (code.children n).map code.get? = parts.map some
  fits : node.fits parts = true

theorem Site.child {code : Code} {n i : Nat} {node part : Node} {parts : List Node}
    (site : Site code n node parts) (selected : parts[i]? = some part) :
    ∃ c, code.child n i = some c ∧ c ∈ code.children n ∧ code.get? c = some part := by
  have whole := congrArg (·[i]?) site.children
  simp only [List.getElem?_map, selected, Option.map_some] at whole
  obtain ⟨c, found, same⟩ := Option.map_eq_some_iff.mp whole
  exact ⟨c, found, List.mem_of_getElem? found, same⟩

theorem Site.function {code : Code} {n : Nat} {parts : List Node}
    (site : Site code n (.operation .functionLiteral) parts) :
    ∃ title params body, code.children n = title :: (params ++ [body]) ∧
      (∀ param ∈ params, ∃ text, code.get? param = some (.literal (.string text))) ∧
      code.get? body = some (.statement .block) := by
  obtain ⟨first, names, rfl, -, texts⟩ := Operation.function_parts site.fits
  have whole := site.children
  rw [List.map_cons, List.map_append] at whole
  obtain ⟨title, rest, split, -, tail⟩ := List.map_eq_cons_iff.mp whole
  obtain ⟨params, last, rfl, mapped, single⟩ := List.map_eq_append_iff.mp tail
  obtain ⟨body, rfl, block⟩ := List.map_eq_singleton_iff.mp single
  refine ⟨title, params, body, split, fun param member => ?_, block⟩
  have listed : code.get? param ∈ names.map some := by
    rw [← mapped]
    exact List.mem_map_of_mem member
  obtain ⟨name, isName, same⟩ := List.mem_map.mp listed
  obtain ⟨text, rfl⟩ := Node.eq_of_isText (texts name isName)
  exact ⟨text, same.symm⟩

namespace Outline

variable {α : Type}

theorem firstChild_eq_head? (t : Outline α) (n : Nat) (bound : 0 < t.size) :
    t.firstChild n = (t.children n).head? := by
  unfold children
  cases t.firstChild n with
  | none => rfl
  | some first =>
    obtain ⟨limit, same⟩ := Nat.exists_eq_succ_of_ne_zero (Nat.pos_iff_ne_zero.mp bound)
    simp only [same, siblingsFrom, List.head?_cons]

theorem child_place {tree sub : Rose α} {path : List Nat} (found : tree.at? path = some sub)
    (i : Nat) :
    (ofRose tree).child (tree.place path) i =
      sub.children[i]?.map fun _ => tree.place (path ++ [i]) := by
  rw [child, children_place found, Rose.childPaths, List.map_map, List.getElem?_map]
  by_cases bound : i < sub.children.length
  · simp [bound]
  · simp [bound]

theorem mem_children_place {tree sub : Rose α} {path : List Nat} (found : tree.at? path = some sub)
    {c : Nat} (member : c ∈ (ofRose tree).children (tree.place path)) :
    ∃ i child, tree.at? (path ++ [i]) = some child ∧ tree.place (path ++ [i]) = c := by
  obtain ⟨i, selected⟩ := List.mem_iff_getElem?.mp member
  rw [← child, child_place found] at selected
  obtain ⟨child, below, position⟩ := Option.map_eq_some_iff.mp selected
  exact ⟨i, child, by rw [Rose.at?_snoc found, below], position⟩

end Outline

namespace Code.Rooted

variable {code : Code} {s : Statement} {n c : Nat}

theorem size_pos (rooted : code.Rooted s) : 0 < code.size := by
  obtain ⟨tree, rfl, -, -⟩ := rooted
  rw [Outline.size_ofRose]
  exact tree.size_pos

theorem get?_zero (rooted : code.Rooted s) : code.get? 0 = some (.statement s) := by
  obtain ⟨tree, rfl, -, root⟩ := rooted
  rw [← root]
  exact Outline.get?_place (Rose.at?_nil tree)

theorem site (rooted : code.Rooted s) (inside : n < code.size) :
    ∃ node parts, Site code n node parts := by
  obtain ⟨tree, rfl, shaped, -⟩ := rooted
  rw [Outline.size_ofRose] at inside
  obtain ⟨path, sub, -, found, rfl⟩ := Rose.exists_path inside
  refine ⟨sub.value, sub.children.map (·.value), Outline.get?_place found, ?_,
    (shaped.sub found).fits⟩
  apply List.ext_getElem?
  intro i
  have numbered := Outline.child_place found i
  rw [Outline.child] at numbered
  rw [List.getElem?_map, numbered, List.map_map, List.getElem?_map]
  cases selected : sub.children[i]? with
  | none => rfl
  | some child =>
    have below : tree.at? (path ++ [i]) = some child := by rw [Rose.at?_snoc found, selected]
    simp [Outline.get?_place below]

theorem inside_of_mem (rooted : code.Rooted s) (inside : n < code.size)
    (member : c ∈ code.children n) : c < code.size := by
  obtain ⟨tree, rfl, -, -⟩ := rooted
  rw [Outline.size_ofRose] at inside ⊢
  obtain ⟨path, sub, -, found, rfl⟩ := Rose.exists_path inside
  obtain ⟨i, child, below, rfl⟩ := Outline.mem_children_place found member
  exact Rose.place_lt_size below

theorem mem_children_iff (rooted : code.Rooted s) (inside : n < code.size)
    (within : c < code.size) : c ∈ code.children n ↔ code.parent c = some n := by
  obtain ⟨tree, rfl, -, -⟩ := rooted
  rw [Outline.size_ofRose] at inside within
  obtain ⟨path, sub, -, found, rfl⟩ := Rose.exists_path inside
  exact (Outline.parent_eq_some_iff found within).symm

theorem parent_of_mem (rooted : code.Rooted s) (inside : n < code.size)
    (member : c ∈ code.children n) : code.parent c = some n :=
  (rooted.mem_children_iff inside (rooted.inside_of_mem inside member)).mp member

theorem nextSibling_mem (rooted : code.Rooted s) (inside : n < code.size) {next : Nat}
    (member : c ∈ code.children n) (follows : code.nextSibling c = some next) :
    next ∈ code.children n := by
  have within := rooted.inside_of_mem inside member
  have above := rooted.parent_of_mem inside member
  have ⟨tree, same, _, _⟩ := rooted
  rw [same, Outline.size_ofRose] at within
  obtain ⟨path, sub, -, found, rfl⟩ := Rose.exists_path within
  rw [same, Outline.nextSibling_place found] at follows
  obtain ⟨nextPath, isNext, rfl⟩ := Option.map_eq_some_iff.mp follows
  rw [same, Outline.parent_place found] at above
  rcases Rose.eq_nil_or_snoc path with rfl | ⟨upper, i, rfl⟩
  · cases isNext
  · rw [Rose.nextPath?_snoc] at isNext
    split at isNext
    case isFalse => cases isNext
    case isTrue present =>
      cases isNext
      obtain ⟨sibling, nextFound⟩ := Option.isSome_iff_exists.mp present
      have size : code.size = tree.size := by rw [same, Outline.size_ofRose]
      rw [rooted.mem_children_iff inside (by rw [size]; exact Rose.place_lt_size nextFound), same,
        Outline.parent_place nextFound, Rose.parentPath?_snoc, ← above, Rose.parentPath?_snoc]

theorem exists_parent (rooted : code.Rooted s) (inside : n < code.size) (below : n ≠ 0) :
    ∃ parent, code.parent n = some parent ∧ parent < code.size ∧ n ∈ code.children parent := by
  have ⟨tree, same, _, _⟩ := rooted
  have size : code.size = tree.size := by rw [same, Outline.size_ofRose]
  obtain ⟨path, sub, -, found, rfl⟩ := Rose.exists_path (size ▸ inside)
  rcases Rose.eq_nil_or_snoc path with rfl | ⟨upper, i, rfl⟩
  · exact absurd (Rose.place_nil tree) below
  · obtain ⟨parent, parentFound, -⟩ := Rose.at?_of_snoc found
    have above : code.parent (tree.place (upper ++ [i])) = some (tree.place upper) := by
      rw [same, Outline.parent_place found, Rose.parentPath?_snoc, Option.map_some]
    have within : tree.place upper < code.size := by
      rw [size]
      exact Rose.place_lt_size parentFound
    exact ⟨_, above, within, (rooted.mem_children_iff within inside).mpr above⟩

/-- A block cut out of the code is a shaped block. -/
theorem subtree (rooted : code.Rooted s) {inner : Statement}
    (block : code.get? n = some (.statement inner)) (inside : n < code.size) :
    Code.Rooted inner (code.subtree n) := by
  obtain ⟨tree, rfl, shaped, -⟩ := rooted
  rw [Outline.size_ofRose] at inside
  obtain ⟨path, sub, -, found, rfl⟩ := Rose.exists_path inside
  refine ⟨sub, Outline.subtree_place found, shaped.sub found, ?_⟩
  exact Option.some.inj ((Outline.get?_place found).symm.trans block)

end Code.Rooted

end StepScript
