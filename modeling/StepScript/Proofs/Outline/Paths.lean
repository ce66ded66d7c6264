import StepScript.Outline.Basic

/-! Nodes of a tree by path.

A path lists, from the root on, which child is taken at every node. Paths name
nodes without counting them, so what a parent, a sibling or a descendant is can
be read off the path alone. `place` counts a path to its position in pre-order,
and `path?` goes back; the two are inverse on the nodes of the tree.
-/

set_option autoImplicit false

namespace StepScript.Rose

variable {α : Type}

mutual

def size : Rose α → Nat
  | node _ children => forestSize children + 1

def forestSize : List (Rose α) → Nat
  | [] => 0
  | tree :: rest => tree.size + forestSize rest

end

def at? (tree : Rose α) : List Nat → Option (Rose α)
  | [] => some tree
  | i :: path => tree.children[i]?.bind fun child => child.at? path

def place (tree : Rose α) : List Nat → Nat
  | [] => 0
  | i :: path =>
    1 + forestSize (tree.children.take i) +
      ((tree.children[i]?.map fun child => child.place path).getD 0)

mutual

def path? : Rose α → Nat → Option (List Nat)
  | _, 0 => some []
  | node _ children, n + 1 => (forestPath? children n).map fun (i, path) => i :: path

def forestPath? : List (Rose α) → Nat → Option (Nat × List Nat)
  | [], _ => none
  | tree :: rest, n =>
    if n < tree.size then (tree.path? n).map fun path => (0, path)
    else (forestPath? rest (n - tree.size)).map fun (i, path) => (i + 1, path)

end

@[simp] theorem at?_nil (tree : Rose α) : tree.at? [] = some tree := rfl

@[simp] theorem place_nil (tree : Rose α) : tree.place [] = 0 := rfl

theorem at?_cons (tree : Rose α) (i : Nat) (path : List Nat) :
    tree.at? (i :: path) = tree.children[i]?.bind fun child => child.at? path := rfl

theorem size_pos (tree : Rose α) : 0 < tree.size := by
  cases tree
  simp only [size]
  omega

theorem size_eq (tree : Rose α) : tree.size = forestSize tree.children + 1 := by
  cases tree
  rfl

theorem forestSize_append (first rest : List (Rose α)) :
    forestSize (first ++ rest) = forestSize first + forestSize rest := by
  induction first with
  | nil => simp [forestSize]
  | cons tree first ih => simp [forestSize, ih, Nat.add_assoc]

theorem forestSize_split {trees : List (Rose α)} {i : Nat} {tree : Rose α}
    (found : trees[i]? = some tree) :
    forestSize trees = forestSize (trees.take i) + tree.size + forestSize (trees.drop (i + 1)) := by
  obtain ⟨bound, rfl⟩ := List.getElem?_eq_some_iff.mp found
  conv => lhs; rw [← List.take_append_drop i trees, List.drop_eq_getElem_cons bound]
  rw [forestSize_append, forestSize, Nat.add_assoc]

theorem size_le_forestSize {trees : List (Rose α)} {tree : Rose α} (member : tree ∈ trees) :
    tree.size ≤ forestSize trees := by
  obtain ⟨i, found⟩ := List.mem_iff_getElem?.mp member
  rw [forestSize_split found]
  omega

theorem at?_append (tree : Rose α) (path rest : List Nat) :
    tree.at? (path ++ rest) = (tree.at? path).bind (·.at? rest) := by
  induction path generalizing tree with
  | nil => rfl
  | cons i path ih =>
    rw [List.cons_append, at?_cons, at?_cons]
    cases tree.children[i]? with
    | none => rfl
    | some child => exact ih child

theorem at?_snoc {tree sub : Rose α} {path : List Nat} (found : tree.at? path = some sub)
    (i : Nat) : tree.at? (path ++ [i]) = sub.children[i]? := by
  rw [at?_append, found, Option.bind_some, at?_cons]
  cases sub.children[i]? <;> rfl

theorem place_append {tree sub : Rose α} {path : List Nat} (found : tree.at? path = some sub)
    (rest : List Nat) : tree.place (path ++ rest) = tree.place path + sub.place rest := by
  induction path generalizing tree with
  | nil =>
    cases found
    simp
  | cons i path ih =>
    rw [at?_cons] at found
    obtain ⟨child, selected, found⟩ := Option.bind_eq_some_iff.mp found
    simp only [List.cons_append, place, selected, Option.map_some, Option.getD_some, ih found]
    omega

theorem place_snoc {tree sub : Rose α} {path : List Nat} (found : tree.at? path = some sub)
    (i : Nat) : tree.place (path ++ [i]) = tree.place path + 1 + forestSize (sub.children.take i) := by
  rw [place_append found, place]
  cases sub.children[i]? <;> simp <;> omega

theorem place_add_size_le {tree sub : Rose α} {path : List Nat} (found : tree.at? path = some sub) :
    tree.place path + sub.size ≤ tree.size := by
  induction path generalizing tree with
  | nil =>
    cases found
    simp
  | cons i path ih =>
    rw [at?_cons] at found
    obtain ⟨child, selected, found⟩ := Option.bind_eq_some_iff.mp found
    have inside := ih found
    have whole := forestSize_split selected
    simp only [place, selected, Option.map_some, Option.getD_some, size_eq tree]
    omega

theorem place_lt_size {tree sub : Rose α} {path : List Nat} (found : tree.at? path = some sub) :
    tree.place path < tree.size := by
  have inside := place_add_size_le found
  have positive := sub.size_pos
  omega

/-! ## From positions to paths -/

mutual

theorem path?_sound : ∀ (tree : Rose α) (n : Nat) (path : List Nat),
    tree.path? n = some path → (∃ sub, tree.at? path = some sub) ∧ tree.place path = n
  | tree, 0, path, found => by
    have root : path = [] := by
      cases tree
      simpa [path?] using found.symm
    subst root
    exact ⟨⟨tree, rfl⟩, rfl⟩
  | node value children, n + 1, path, found => by
    simp only [path?, Option.map_eq_some_iff, Prod.exists] at found
    obtain ⟨i, rest, inForest, rfl⟩ := found
    obtain ⟨child, selected, ⟨sub, below⟩, position⟩ := forestPath?_sound children n i rest inForest
    refine ⟨⟨sub, ?_⟩, ?_⟩
    · rw [at?_cons, Rose.children, selected]
      exact below
    · simp only [place, Rose.children, selected, Option.map_some, Option.getD_some]
      omega

theorem forestPath?_sound : ∀ (trees : List (Rose α)) (n i : Nat) (path : List Nat),
    forestPath? trees n = some (i, path) →
      ∃ tree, trees[i]? = some tree ∧ (∃ sub, tree.at? path = some sub) ∧
        forestSize (trees.take i) + tree.place path = n
  | [], n, i, path, found => by simp [forestPath?] at found
  | tree :: rest, n, i, path, found => by
    simp only [forestPath?] at found
    split at found
    · simp only [Option.map_eq_some_iff, Prod.mk.injEq] at found
      obtain ⟨_, inTree, rfl, rfl⟩ := found
      obtain ⟨valid, position⟩ := path?_sound tree n _ inTree
      exact ⟨tree, rfl, valid, by simpa [forestSize] using position⟩
    · simp only [Option.map_eq_some_iff, Prod.mk.injEq, Prod.exists] at found
      obtain ⟨j, _, inRest, rfl, rfl⟩ := found
      obtain ⟨other, selected, valid, position⟩ := forestPath?_sound rest _ j _ inRest
      refine ⟨other, selected, valid, ?_⟩
      simp only [List.take_succ_cons, forestSize]
      omega

end

mutual

theorem path?_isSome : ∀ (tree : Rose α) (n : Nat), n < tree.size → (tree.path? n).isSome
  | tree, 0, _ => by
    cases tree
    simp [path?]
  | node value children, n + 1, bound => by
    simp only [size] at bound
    simp only [path?, Option.isSome_map]
    exact forestPath?_isSome children n (by omega)

theorem forestPath?_isSome : ∀ (trees : List (Rose α)) (n : Nat), n < forestSize trees →
    (forestPath? trees n).isSome
  | [], n, bound => by simp [forestSize] at bound
  | tree :: rest, n, bound => by
    simp only [forestSize] at bound
    simp only [forestPath?]
    split
    · rename_i inTree
      simpa using path?_isSome tree n inTree
    · simpa using forestPath?_isSome rest (n - tree.size) (by omega)

end

/-- The tree at `i` holds position `n` when `n` lies past the trees before it and short of the
ones behind. -/
theorem forestPath?_at {trees : List (Rose α)} {i : Nat} {tree : Rose α}
    (found : trees[i]? = some tree) {n : Nat} (inside : n < tree.size) :
    forestPath? trees (forestSize (trees.take i) + n) = (tree.path? n).map fun path => (i, path) := by
  induction trees generalizing i with
  | nil => simp at found
  | cons first rest ih =>
    cases i with
    | zero =>
      cases found
      simp [forestPath?, forestSize, inside]
    | succ i =>
      have notFirst : ¬ (first.size + forestSize (rest.take i) + n < first.size) := by omega
      have shifted : first.size + forestSize (rest.take i) + n - first.size =
          forestSize (rest.take i) + n := by omega
      rw [List.take_succ_cons, forestSize, forestPath?, if_neg notFirst, shifted, ih found]
      cases tree.path? n <;> rfl

/-- Counting a path to its position and back. -/
theorem path?_place {tree sub : Rose α} {path : List Nat} (found : tree.at? path = some sub) :
    tree.path? (tree.place path) = some path := by
  induction path generalizing tree with
  | nil => cases tree; rfl
  | cons i path ih =>
    obtain ⟨value, children⟩ := tree
    rw [at?_cons] at found
    obtain ⟨child, selected, found⟩ := Option.bind_eq_some_iff.mp found
    rw [Rose.children] at selected
    have position : (node value children).place (i :: path) =
        forestSize (children.take i) + child.place path + 1 := by
      simp only [place, Rose.children, selected, Option.map_some, Option.getD_some]
      omega
    rw [position, path?, forestPath?_at selected (place_lt_size found), ih found]
    rfl

theorem place_injective {tree first second : Rose α} {path other : List Nat}
    (found : tree.at? path = some first) (found' : tree.at? other = some second)
    (same : tree.place path = tree.place other) : path = other := by
  have back := path?_place found
  rw [same, path?_place found'] at back
  exact (Option.some.inj back).symm

theorem exists_path {tree : Rose α} {n : Nat} (bound : n < tree.size) :
    ∃ path sub, tree.path? n = some path ∧ tree.at? path = some sub ∧ tree.place path = n := by
  obtain ⟨path, found⟩ := Option.isSome_iff_exists.mp (path?_isSome tree n bound)
  obtain ⟨⟨sub, valid⟩, position⟩ := path?_sound tree n path found
  exact ⟨path, sub, found, valid, position⟩

theorem path?_eq_none {tree : Rose α} {n : Nat} (bound : tree.size ≤ n) : tree.path? n = none := by
  cases found : tree.path? n with
  | none => rfl
  | some path =>
    obtain ⟨⟨sub, valid⟩, position⟩ := path?_sound tree n path found
    have inside := place_lt_size valid
    omega

end StepScript.Rose
