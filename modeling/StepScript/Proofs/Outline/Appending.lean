import StepScript.Proofs.Outline.Editing

/-! A new last child.

A tree that gets one more child at its end keeps its nodes where they are. Below the root it also
keeps how they hang together. Only the root and its last child see the new one: it is what
follows them where nothing followed before, and it stands where the tree ended.
-/

set_option autoImplicit false

namespace StepScript

variable {α : Type}

namespace Rose

variable {tree sub : Rose α} {path : List Nat} (new : Rose α)

theorem value_addLast (tree : Rose α) : (addLast new tree).value = tree.value := by
  cases tree
  rfl

theorem children_addLast (tree : Rose α) :
    (addLast new tree).children = tree.children ++ [new] := by
  cases tree
  rfl

theorem child_addLast {i : Nat} {child : Rose α} (selected : tree.children[i]? = some child) :
    (addLast new tree).children[i]? = some child := by
  rw [children_addLast, List.getElem?_append_left (List.getElem?_eq_some_iff.mp selected).1,
    selected]

theorem at?_addLast (found : tree.at? path = some sub) (below : path ≠ []) :
    (addLast new tree).at? path = some sub := by
  cases path with
  | nil => exact absurd rfl below
  | cons i rest =>
    rw [at?_cons] at found ⊢
    obtain ⟨child, selected, found⟩ := Option.bind_eq_some_iff.mp found
    rw [child_addLast new selected]
    exact found

theorem place_addLast (found : tree.at? path = some sub) :
    (addLast new tree).place path = tree.place path := by
  cases path with
  | nil => rfl
  | cons i rest =>
    rw [at?_cons] at found
    obtain ⟨child, selected, -⟩ := Option.bind_eq_some_iff.mp found
    have before := (List.getElem?_eq_some_iff.mp selected).1
    rw [place, place, child_addLast new selected, selected, children_addLast,
      List.take_append_of_le_length (Nat.le_of_lt before)]

theorem at?_last (tree : Rose α) : (addLast new tree).at? [tree.children.length] = some new := by
  rw [at?_cons, children_addLast, List.getElem?_concat_length]
  rfl

theorem place_last_addLast (tree : Rose α) :
    (addLast new tree).place [tree.children.length] = tree.size := by
  have placed := place_snoc (at?_nil (addLast new tree)) tree.children.length
  rw [List.nil_append, place_nil, children_addLast, List.take_left] at placed
  rw [placed, size_eq tree]
  omega

theorem nextPath?_addLast {i : Nat} {child : Rose α} (selected : tree.children[i]? = some child) :
    ((addLast new tree).nextPath? [i]).map (addLast new tree).place =
      some (((tree.nextPath? [i]).map tree.place).getD tree.size) := by
  have bound := (List.getElem?_eq_some_iff.mp selected).1
  rw [← List.nil_append [i], nextPath?_snoc, nextPath?_snoc, List.nil_append]
  cases next : tree.children[i + 1]? with
  | some sibling =>
    have found : tree.at? [i + 1] = some sibling := (at?_snoc (at?_nil tree) (i + 1)).trans next
    rw [found, at?_addLast new found (List.cons_ne_nil _ _)]
    exact congrArg some (place_addLast new found)
  | none =>
    have last : i + 1 = tree.children.length := by
      have := List.getElem?_eq_none_iff.mp next
      omega
    have missing : tree.at? [i + 1] = none := (at?_snoc (at?_nil tree) (i + 1)).trans next
    rw [missing, last, at?_last]
    exact congrArg some (place_last_addLast new tree)

end Rose

namespace Outline

variable {tree : Rose α} {n : Nat} (new : Rose α)

theorem exists_path_of_ne_zero (inside : n < tree.size) (below : n ≠ 0) :
    ∃ path sub, tree.at? path = some sub ∧ path ≠ [] ∧ tree.place path = n := by
  obtain ⟨path, sub, -, found, rfl⟩ := Rose.exists_path inside
  refine ⟨path, sub, found, ?_, rfl⟩
  rintro rfl
  exact below (Rose.place_nil tree)

theorem exists_child_of_ne_zero (inside : n < tree.size) (below : n ≠ 0) :
    ∃ path i parent child, tree.at? path = some parent ∧ parent.children[i]? = some child ∧
      tree.at? (path ++ [i]) = some child ∧ tree.place (path ++ [i]) = n := by
  obtain ⟨path, child, found, inner, rfl⟩ := exists_path_of_ne_zero inside below
  obtain ⟨upper, i, rfl⟩ := (Rose.eq_nil_or_snoc path).resolve_left inner
  obtain ⟨parent, above, selected⟩ := Rose.at?_of_snoc found
  exact ⟨upper, i, parent, child, above, selected, found, rfl⟩

theorem get?_addLast (inside : n < tree.size) :
    (ofRose (Rose.addLast new tree)).get? n = (ofRose tree).get? n := by
  by_cases below : n = 0
  · subst below
    have root := get?_place (Rose.at?_nil (Rose.addLast new tree))
    rw [Rose.place_nil, Rose.value_addLast] at root
    exact root.trans (get?_place (Rose.at?_nil tree)).symm
  · obtain ⟨path, sub, found, inner, rfl⟩ := exists_path_of_ne_zero inside below
    rw [get?_place found, ← Rose.place_addLast new found,
      get?_place (Rose.at?_addLast new found inner)]

theorem parent_addLast (inside : n < tree.size) :
    (ofRose (Rose.addLast new tree)).parent n = (ofRose tree).parent n := by
  by_cases below : n = 0
  · subst below
    rfl
  · obtain ⟨path, i, parent, child, above, -, found, rfl⟩ := exists_child_of_ne_zero inside below
    rw [parent_place found, ← Rose.place_addLast new found,
      parent_place (Rose.at?_addLast new found (List.concat_ne_nil i path)),
      Rose.parentPath?_snoc, Option.map_some, Option.map_some, Rose.place_addLast new above]

section Below

variable (inside : n < tree.size) (below : n ≠ 0)
include inside below

theorem children_addLast :
    (ofRose (Rose.addLast new tree)).children n = (ofRose tree).children n := by
  obtain ⟨path, sub, found, inner, rfl⟩ := exists_path_of_ne_zero inside below
  rw [children_place found, ← Rose.place_addLast new found,
    children_place (Rose.at?_addLast new found inner)]
  refine List.map_congr_left fun other member => ?_
  obtain ⟨i, selected, rfl⟩ := List.mem_map.mp member
  have there := List.getElem?_eq_getElem (List.mem_range.mp selected)
  exact Rose.place_addLast new ((Rose.at?_snoc found i).trans there)

theorem firstChild_addLast :
    (ofRose (Rose.addLast new tree)).firstChild n = (ofRose tree).firstChild n := by
  obtain ⟨path, sub, found, inner, rfl⟩ := exists_path_of_ne_zero inside below
  have found' := Rose.at?_addLast new found inner
  rw [firstChild_place found, ← Rose.place_addLast new found, firstChild_place found',
    Rose.place_snoc found, Rose.place_snoc found', Rose.place_addLast new found]

theorem subtree_addLast :
    (ofRose (Rose.addLast new tree)).subtree n = (ofRose tree).subtree n := by
  obtain ⟨path, sub, found, inner, rfl⟩ := exists_path_of_ne_zero inside below
  rw [subtree_place found, ← Rose.place_addLast new found,
    subtree_place (Rose.at?_addLast new found inner)]

theorem nextSibling_addLast (deep : (ofRose tree).parent n ≠ some 0) :
    (ofRose (Rose.addLast new tree)).nextSibling n = (ofRose tree).nextSibling n := by
  obtain ⟨path, i, parent, child, above, -, found, rfl⟩ := exists_child_of_ne_zero inside below
  rw [nextSibling_place found, ← Rose.place_addLast new found,
    nextSibling_place (Rose.at?_addLast new found (List.concat_ne_nil i path))]
  have lower : path ≠ [] := by
    rintro rfl
    exact deep (parent_place found)
  rw [Rose.nextPath?_snoc, Rose.nextPath?_snoc, Rose.at?_snoc above,
    Rose.at?_snoc (Rose.at?_addLast new above lower)]
  cases next : parent.children[i + 1]? with
  | none => rfl
  | some sibling =>
    exact congrArg some (Rose.place_addLast new ((Rose.at?_snoc above (i + 1)).trans next))

end Below

theorem nextSibling_addLast_of_child (inside : n < tree.size)
    (child : (ofRose tree).parent n = some 0) :
    (ofRose (Rose.addLast new tree)).nextSibling n =
      some (((ofRose tree).nextSibling n).getD tree.size) := by
  have below : n ≠ 0 := by
    rintro rfl
    cases child
  obtain ⟨path, i, parent, sub, above, selected, found, rfl⟩ :=
    exists_child_of_ne_zero inside below
  obtain rfl : path = [] := by
    rw [parent_place found, Rose.parentPath?_snoc, Option.map_some, Option.some_inj] at child
    exact Rose.place_injective above (Rose.at?_nil tree) child
  cases above
  rw [nextSibling_place found, ← Rose.place_addLast new found,
    nextSibling_place (Rose.at?_addLast new found (List.concat_ne_nil i []))]
  exact Rose.nextPath?_addLast new selected

theorem firstChild_zero_addLast (tree : Rose α) :
    (ofRose (Rose.addLast new tree)).firstChild 0 =
      some (((ofRose tree).firstChild 0).getD tree.size) := by
  have first := firstChild_place (Rose.at?_nil tree)
  have first' := firstChild_place (Rose.at?_nil (Rose.addLast new tree))
  rw [Rose.place_nil, List.nil_append] at first first'
  rw [first, first', Rose.children_addLast]
  cases parts : tree.children with
  | nil =>
    have placed := Rose.place_last_addLast new tree
    rw [parts, List.length_nil] at placed
    exact congrArg some placed
  | cons child rest =>
    have found : tree.at? [0] = some child :=
      (Rose.at?_snoc (Rose.at?_nil tree) 0).trans (by rw [parts]; rfl)
    exact congrArg some (Rose.place_addLast new found)

theorem firstChild_addLast_of_parent {parent : Nat} (inside : n < tree.size)
    (child : (ofRose tree).parent n = some parent) :
    (ofRose (Rose.addLast new tree)).firstChild parent = (ofRose tree).firstChild parent := by
  have below : n ≠ 0 := by
    rintro rfl
    cases child
  obtain ⟨path, i, top, sub, above, selected, found, rfl⟩ :=
    exists_child_of_ne_zero inside below
  obtain rfl : tree.place path = parent := by
    rw [parent_place found, Rose.parentPath?_snoc] at child
    exact Option.some.inj child
  by_cases root : tree.place path = 0
  · have some : top.children.isEmpty = false := by
      cases parts : top.children with
      | nil => simp [parts] at selected
      | cons => rfl
    have first := firstChild_place above
    rw [some, root] at first
    rw [root, firstChild_zero_addLast, first]
    rfl
  · exact firstChild_addLast new (Rose.place_lt_size above) root

theorem get?_size_addLast (tree : Rose α) :
    (ofRose (Rose.addLast new tree)).get? tree.size = some new.value := by
  rw [← Rose.place_last_addLast new tree]
  exact get?_place (Rose.at?_last new tree)

end Outline

end StepScript
