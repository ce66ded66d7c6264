import Mathlib.Data.List.Induction
import StepScript.Proofs.Outline.Levels

/-! Finding one's way in an outline by sums of weights.

A run of weights adds up to a difference of levels, so a forward sum drops to
`0` at the first node that is no deeper than the start, and a backward sum turns
positive at the first node that is less deep. For the outline of a tree these
are the end of the subtree and the parent. The main statement, `charted_ofRose`,
compares every question about a node of an outline with the tree, where nodes
are named by paths.
-/

set_option autoImplicit false

namespace StepScript

variable {α : Type}

namespace Rose

open Outline (firstLevel)

/-- The level of the node at a position; past the end it is `-1`. -/
def levelAt (tree : Rose α) (n : Nat) : Int :=
  firstLevel (-1) ((tree.levels 0).drop n)

def parentPath? (path : List Nat) : Option (List Nat) :=
  path.getLast?.map fun _ => path.dropLast

def nextPath? (tree : Rose α) (path : List Nat) : Option (List Nat) :=
  path.getLast?.bind fun i =>
    if (tree.at? (path.dropLast ++ [i + 1])).isSome then some (path.dropLast ++ [i + 1]) else none

def prevPath? (path : List Nat) : Option (List Nat) :=
  path.getLast?.bind fun i => if i = 0 then none else some (path.dropLast ++ [i - 1])

def childPaths (path : List Nat) (sub : Rose α) : List (List Nat) :=
  (List.range sub.children.length).map fun i => path ++ [i]

@[simp] theorem parentPath?_nil : parentPath? [] = none := rfl

@[simp] theorem parentPath?_snoc (path : List Nat) (i : Nat) :
    parentPath? (path ++ [i]) = some path := by
  simp [parentPath?]

@[simp] theorem nextPath?_nil (tree : Rose α) : tree.nextPath? [] = none := rfl

@[simp] theorem nextPath?_snoc (tree : Rose α) (path : List Nat) (i : Nat) :
    tree.nextPath? (path ++ [i]) =
      if (tree.at? (path ++ [i + 1])).isSome then some (path ++ [i + 1]) else none := by
  simp [nextPath?]

@[simp] theorem prevPath?_nil : prevPath? [] = none := rfl

@[simp] theorem prevPath?_snoc (path : List Nat) (i : Nat) :
    prevPath? (path ++ [i]) = if i = 0 then none else some (path ++ [i - 1]) := by
  simp [prevPath?]

theorem eq_nil_or_snoc (path : List Nat) : path = [] ∨ ∃ parent i, path = parent ++ [i] := by
  rcases List.eq_nil_or_concat path with root | ⟨parent, i, same⟩
  · exact .inl root
  · exact .inr ⟨parent, i, by rw [same, List.concat_eq_append]⟩

theorem at?_of_snoc {tree sub : Rose α} {path : List Nat} {i : Nat}
    (found : tree.at? (path ++ [i]) = some sub) :
    ∃ parent, tree.at? path = some parent ∧ parent.children[i]? = some sub := by
  rw [at?_append] at found
  obtain ⟨parent, above, below⟩ := Option.bind_eq_some_iff.mp found
  rw [at?_cons] at below
  obtain ⟨child, selected, same⟩ := Option.bind_eq_some_iff.mp below
  cases same
  exact ⟨parent, above, selected⟩

theorem levelAt_place {tree sub : Rose α} {path : List Nat} (found : tree.at? path = some sub) :
    tree.levelAt (tree.place path) = path.length := by
  obtain ⟨before, after, position, -, whole, -⟩ := levels_modifyAt found 0
  rw [levelAt, whole, ← position, List.drop_left, Outline.firstLevel_append,
    Outline.firstLevel_levels, Int.zero_add]

theorem levelAt_stop_le {tree sub : Rose α} {path : List Nat} (found : tree.at? path = some sub) :
    tree.levelAt (tree.place path + sub.size) ≤ path.length := by
  obtain ⟨before, after, position, ends, whole, -⟩ := levels_modifyAt found 0
  have behind : (tree.levels 0).drop (tree.place path + sub.size) = after := by
    rw [whole, ← position, ← List.drop_drop, List.drop_left,
      ← length_levels sub ((0 : Int) + path.length), List.drop_left]
  have bound := ends (-1) (by omega)
  rw [levelAt, behind]
  omega

theorem levelAt_size (tree : Rose α) : tree.levelAt tree.size = -1 := by
  rw [levelAt, ← length_levels tree 0, List.drop_length]
  rfl

theorem place_next {tree parent child : Rose α} {path : List Nat} {i : Nat}
    (found : tree.at? path = some parent) (selected : parent.children[i]? = some child) :
    tree.place (path ++ [i + 1]) = tree.place (path ++ [i]) + child.size := by
  obtain ⟨bound, rfl⟩ := List.getElem?_eq_some_iff.mp selected
  rw [place_snoc found, place_snoc found, List.take_add_one, List.getElem?_eq_getElem bound,
    forestSize_append]
  simp only [Option.toList_some, forestSize]
  omega

theorem place_last {tree parent child : Rose α} {path : List Nat} {i : Nat}
    (found : tree.at? path = some parent) (selected : parent.children[i]? = some child)
    (last : parent.children.length = i + 1) :
    tree.place (path ++ [i]) + child.size = tree.place path + parent.size := by
  have whole := forestSize_split selected
  rw [List.drop_eq_nil_of_le (by omega), forestSize, Nat.add_zero] at whole
  rw [place_snoc found, size_eq parent, whole]
  omega

end Rose

namespace Outline

open Rose

/-! ## Sums of weights are differences of levels -/

/-- The sum runs through what is deeper than `base` and ends before what is not. -/
theorem extent_weigh (inner outer : List (Int × α)) (stop base : Int) (nonempty : inner ≠ [])
    (deeper : ∀ item ∈ inner.tail, base < item.1) (ends : firstLevel stop outer ≤ base) :
    extent (weigh stop (inner ++ outer)) (firstLevel stop inner - base) =
      (inner.length, firstLevel stop outer - base) := by
  -- By induction on what lies deeper; up to each node the weights add up to its level.
  induction inner with
  | nil => exact absurd rfl nonempty
  | cons item rest ih =>
    have sum (next : Int) : item.1 - base + (next - item.1) = next - base := by omega
    simp only [List.cons_append, weigh, extent, firstLevel_cons, sum, firstLevel_append]
    cases rest with
    | nil =>
      have below : firstLevel stop outer - base ≤ 0 := by omega
      simp only [firstLevel_nil, below, if_true, List.length_singleton]
    | cons next rest =>
      have above : ¬ (next.1 - base ≤ 0) := by
        have := deeper next (by simp)
        omega
      have tail := ih (by simp) (fun item member => deeper item (by simp_all))
      simp only [firstLevel_cons] at tail ⊢
      simp only [above, if_false, tail, List.length_cons]

/-- The subtree of a node ends after its nodes, and its weight leads to what follows. -/
theorem span_place {tree sub : Rose α} {path : List Nat} (found : tree.at? path = some sub) :
    (ofRose tree).span (tree.place path) =
      (tree.place path + sub.size,
        tree.levelAt (tree.place path + sub.size) - path.length) := by
  obtain ⟨before, after, position, ends, whole, -⟩ := levels_modifyAt found 0
  have here : (ofRose tree).entries.drop (tree.place path) =
      weigh (-1) (sub.levels (0 + path.length) ++ after) := by
    rw [entries_ofRose, whole, ← position, weigh_append, ← length_weigh _ before, List.drop_left]
  have behind : tree.levelAt (tree.place path + sub.size) = firstLevel (-1) after := by
    rw [levelAt, whole, ← position, ← List.drop_drop, List.drop_left,
      ← length_levels sub ((0 : Int) + path.length), List.drop_left]
  have deeper : ∀ item ∈ (sub.levels (0 + path.length)).tail, (0 + path.length : Int) < item.1 := by
    intro item member
    rw [levels_eq, List.tail_cons] at member
    have := le_of_mem_forestLevels _ _ item member
    omega
  have sum := extent_weigh (sub.levels (0 + path.length)) after (-1) (0 + path.length)
    (by rw [levels_eq]; simp) deeper (ends (-1) (by omega))
  rw [firstLevel_levels, Int.sub_self, length_levels] at sum
  rw [span, here, sum, behind, Int.zero_add]

theorem stop_place {tree sub : Rose α} {path : List Nat} (found : tree.at? path = some sub) :
    (ofRose tree).stop (tree.place path) = tree.place path + sub.size := by
  rw [stop, span_place found]

theorem get?_place {tree sub : Rose α} {path : List Nat} (found : tree.at? path = some sub) :
    (ofRose tree).get? (tree.place path) = some sub.value := by
  obtain ⟨before, after, position, -, whole, -⟩ := levels_modifyAt found 0
  rw [get?, entries_ofRose, whole, ← position, weigh_append, ← length_weigh _ before,
    List.getElem?_append_right (Nat.le_refl _), Nat.sub_self, levels_eq]
  rfl

theorem isLeaf_place {tree sub : Rose α} {path : List Nat} (found : tree.at? path = some sub) :
    (ofRose tree).isLeaf (tree.place path) = sub.children.isEmpty := by
  obtain ⟨before, after, position, ends, whole, -⟩ := levels_modifyAt found 0
  have bound := ends (-1) (by omega)
  have weight : (ofRose tree).weight (tree.place path) =
      (if sub.children.isEmpty then firstLevel (-1) after else 0 + path.length + 1) -
        (0 + path.length) := by
    rw [Outline.weight, entries_ofRose, whole, ← position, weigh_append, ← length_weigh _ before,
      List.getElem?_append_right (Nat.le_refl _), Nat.sub_self, levels_eq, List.cons_append, weigh,
      firstLevel_append, firstLevel_forestLevels]
    rfl
  rw [isLeaf, weight]
  cases sub.children.isEmpty with
  | true =>
    rw [if_pos rfl, decide_eq_true_eq]
    omega
  | false =>
    rw [if_neg Bool.false_ne_true, decide_eq_false_iff_not]
    omega

theorem firstChild_place {tree sub : Rose α} {path : List Nat} (found : tree.at? path = some sub) :
    (ofRose tree).firstChild (tree.place path) =
      if sub.children.isEmpty then none else some (tree.place (path ++ [0])) := by
  rw [firstChild, isLeaf_place found, place_snoc found]
  rfl

theorem nextSibling_place {tree sub : Rose α} {path : List Nat} (found : tree.at? path = some sub) :
    (ofRose tree).nextSibling (tree.place path) = (tree.nextPath? path).map tree.place := by
  rw [nextSibling, span_place found, size_ofRose]
  rcases eq_nil_or_snoc path with rfl | ⟨above, i, rfl⟩
  · cases found
    simp
  · obtain ⟨parent, parentFound, selected⟩ := at?_of_snoc found
    rw [nextPath?_snoc, at?_snoc parentFound]
    simp only [← place_next parentFound selected]
    cases next : parent.children[i + 1]? with
    | some sibling =>
      have siblingFound : tree.at? (above ++ [i + 1]) = some sibling := by
        rw [at?_snoc parentFound, next]
      have inside := place_lt_size siblingFound
      have level := levelAt_place siblingFound
      simp only [List.length_append, List.length_singleton] at level ⊢
      simp [inside, level]
    | none =>
      -- The subtree ends where that of its parent does, and what follows is less deep.
      have last : parent.children.length = i + 1 := by
        have := List.getElem?_eq_none_iff.mp next
        have := (List.getElem?_eq_some_iff.mp selected).1
        omega
      have level := levelAt_stop_le parentFound
      rw [← place_last parentFound selected last, ← place_next parentFound selected] at level
      have below : ¬ (tree.levelAt (tree.place (above ++ [i + 1])) -
          ((above ++ [i]).length : Int) = 0) := by
        simp only [List.length_append, List.length_singleton]
        omega
      simp only [below, and_false, if_false, Option.isSome_none, Bool.false_eq_true,
        Option.map_none]

theorem siblingsFrom_place {tree parent : Rose α} {path : List Nat}
    (found : tree.at? path = some parent) (count i limit : Nat)
    (rest : parent.children.length = i + (count + 1)) (enough : count < limit) :
    (ofRose tree).siblingsFrom limit (tree.place (path ++ [i])) =
      (List.range' i (count + 1)).map fun j => tree.place (path ++ [j]) := by
  -- By induction on the number of siblings that follow.
  induction count generalizing i limit with
  | zero =>
    obtain ⟨limit, rfl⟩ : ∃ k, limit = k + 1 := ⟨limit - 1, by omega⟩
    have selected : tree.at? (path ++ [i]) = some parent.children[i] := by
      rw [at?_snoc found, List.getElem?_eq_getElem]
    have last : parent.children[i + 1]? = none := List.getElem?_eq_none_iff.mpr (by omega)
    rw [siblingsFrom, nextSibling_place selected, nextPath?_snoc, at?_snoc found, last]
    rfl
  | succ count ih =>
    obtain ⟨limit, rfl⟩ : ∃ k, limit = k + 1 := ⟨limit - 1, by omega⟩
    have selected : tree.at? (path ++ [i]) = some parent.children[i] := by
      rw [at?_snoc found, List.getElem?_eq_getElem]
    have next : (tree.at? (path ++ [i + 1])).isSome := by
      rw [at?_snoc found, List.getElem?_eq_getElem (by omega)]
      rfl
    have tail := ih (i + 1) limit (by omega) (by omega)
    rw [siblingsFrom, nextSibling_place selected, nextPath?_snoc, if_pos next]
    simp only [Option.map_some, tail]
    rw [List.range'_succ (n := count + 1)]
    rfl

theorem length_le_forestSize (trees : List (Rose α)) : trees.length ≤ forestSize trees := by
  induction trees with
  | nil => simp
  | cons tree rest ih =>
    have := tree.size_pos
    simp only [List.length_cons, forestSize]
    omega

theorem children_place {tree sub : Rose α} {path : List Nat} (found : tree.at? path = some sub) :
    (ofRose tree).children (tree.place path) = (childPaths path sub).map tree.place := by
  rw [Outline.children, firstChild_place found]
  cases count : sub.children.length with
  | zero =>
    have none : sub.children = [] := List.length_eq_zero_iff.mp count
    simp [childPaths, none]
  | succ more =>
    have some : sub.children.isEmpty = false := by
      cases empty : sub.children with
      | nil => simp [empty] at count
      | cons _ _ => rfl
    have room := place_add_size_le found
    have fewer := length_le_forestSize sub.children
    rw [size_eq sub] at room
    simp only [some, Bool.false_eq_true, if_false, size_ofRose]
    rw [siblingsFrom_place found more 0 tree.size (by omega) (by omega), childPaths, count,
      List.range_eq_range', List.map_map]
    rfl

/-! ## Looking back -/

/-- The weights in front of a node at `level` are those of a listing that leads to `level`. -/
theorem take_entries {tree sub : Rose α} {path : List Nat} {before after : List (Int × α)}
    (position : before.length = tree.place path)
    (whole : tree.levels 0 = before ++ (sub.levels (0 + path.length) ++ after)) :
    (ofRose tree).entries.take (tree.place path) = weigh path.length before := by
  rw [entries_ofRose, whole, ← position, weigh_append, ← length_weigh _ before, List.take_left,
    firstLevel_append, firstLevel_levels, Int.zero_add]

/-- The weights of a listing add up to the difference of its ends. -/
theorem totalWeight_weigh (stop : Int) (items : List (Int × α)) :
    totalWeight (weigh stop items) = stop - firstLevel stop items := by
  induction items with
  | nil => simp [weigh, totalWeight]
  | cons item rest ih =>
    rw [totalWeight] at ih
    rw [weigh, totalWeight, List.foldr_cons, ih, firstLevel_cons]
    simp only
    omega

theorem depth_place {tree sub : Rose α} {path : List Nat} (found : tree.at? path = some sub) :
    (ofRose tree).depth (tree.place path) = path.length := by
  obtain ⟨before, after, position, -, whole, -⟩ := levels_modifyAt found 0
  have root : firstLevel (path.length : Int) before = 0 := by
    have first : firstLevel (path.length : Int) (tree.levels 0) = 0 := firstLevel_levels _ _ _
    rwa [whole, firstLevel_append, firstLevel_append, firstLevel_levels, Int.zero_add] at first
  rw [depth, take_entries position whole, totalWeight_weigh, root, Int.sub_zero, Int.toNat_natCast]

theorem reverse_weigh_snoc (stop : Int) (items : List (Int × α)) (item : Int × α) :
    (weigh stop (items ++ [item])).reverse =
      ⟨stop - item.1, item.2⟩ :: (weigh item.1 items).reverse := by
  rw [weigh_append, List.reverse_append]
  rfl

/-- Looking back from `level`, nodes that are at least as deep are passed over and the first one
that is less deep is the parent. -/
theorem parentAmong_weigh (front items : List (Int × α)) (item : Int × α) (level stop : Int)
    (passed : ∀ other ∈ items, level ≤ other.1) (less : item.1 < level) :
    parentAmong (weigh stop (front ++ item :: items)).reverse (level - stop) =
      some front.length := by
  induction items using List.reverseRecOn generalizing stop with
  | nil =>
    have positive : level - stop + (stop - item.1) > 0 := by omega
    rw [reverse_weigh_snoc, parentAmong, if_pos positive, List.length_reverse, length_weigh]
  | append_singleton items last ih =>
    have notYet : ¬ (level - stop + (stop - last.1) > 0) := by
      have := passed last (by simp)
      omega
    have sum : level - stop + (stop - last.1) = level - last.1 := by omega
    rw [← List.cons_append, ← List.append_assoc, reverse_weigh_snoc, parentAmong, if_neg notYet, sum]
    exact ih last.1 fun other member => passed other (by simp [member])

theorem siblingAmong_weigh (front items : List (Int × α)) (item : Int × α) (level stop : Int)
    (passed : ∀ other ∈ items, level < other.1) (reached : item.1 ≤ level) :
    siblingAmong (weigh stop (front ++ item :: items)).reverse (level - stop) =
      if item.1 = level then some front.length else none := by
  induction items using List.reverseRecOn generalizing stop with
  | nil =>
    have sum : level - stop + (stop - item.1) = level - item.1 := by omega
    rw [reverse_weigh_snoc, siblingAmong, sum, List.length_reverse, length_weigh]
    by_cases same : item.1 = level
    · rw [if_pos (by omega), if_pos same]
    · rw [if_neg (by omega), if_pos (by omega), if_neg same]
  | append_singleton items last ih =>
    have deeper := passed last (by simp)
    have sum : level - stop + (stop - last.1) = level - last.1 := by omega
    rw [← List.cons_append, ← List.append_assoc, reverse_weigh_snoc, siblingAmong, sum,
      if_neg (by omega), if_neg (by omega)]
    exact ih last.1 fun other member => passed other (by simp [member])

theorem levels_child {tree parent child : Rose α} {path : List Nat} {i : Nat}
    (found : tree.at? path = some parent) (selected : parent.children[i]? = some child) :
    ∃ before after : List (Int × α), before.length = tree.place path ∧
      tree.levels 0 = (before ++ ((path.length : Int), parent.value) ::
          forestLevels (path.length + 1) (parent.children.take i)) ++
        (child.levels (0 + (path ++ [i]).length) ++ after) ∧
      (before ++ ((path.length : Int), parent.value) ::
        forestLevels (path.length + 1) (parent.children.take i)).length =
          tree.place (path ++ [i]) := by
  obtain ⟨before, after, position, -, whole, -⟩ := levels_modifyAt found 0
  refine ⟨before, forestLevels (path.length + 1) (parent.children.drop (i + 1)) ++ after,
    position, ?_, ?_⟩
  · rw [whole, levels_eq, forestLevels_split selected, Int.zero_add]
    simp only [List.length_append, List.length_singleton, Int.natCast_add, List.append_assoc,
      List.cons_append, Int.zero_add]
    rfl
  · rw [List.length_append, List.length_cons, length_forestLevels, position, place_snoc found]
    omega

theorem parent_place {tree sub : Rose α} {path : List Nat} (found : tree.at? path = some sub) :
    (ofRose tree).parent (tree.place path) = (parentPath? path).map tree.place := by
  rcases eq_nil_or_snoc path with rfl | ⟨above, i, rfl⟩
  · rfl
  · obtain ⟨parent, parentFound, selected⟩ := at?_of_snoc found
    obtain ⟨before, after, position, whole, place⟩ := levels_child parentFound selected
    have passed : ∀ other ∈ forestLevels (above.length + 1) (parent.children.take i),
        (above.length + 1 : Int) ≤ other.1 := le_of_mem_forestLevels _ _
    have back := parentAmong_weigh before _ ((above.length : Int), parent.value)
      (above.length + 1) (above.length + 1) passed (by simp only; omega)
    rw [Int.sub_self] at back
    rw [Outline.parent, take_entries place whole, parentPath?_snoc, Option.map_some, ← position,
      List.length_append, List.length_singleton, Int.natCast_add]
    exact back

theorem prevSibling_place {tree sub : Rose α} {path : List Nat} (found : tree.at? path = some sub) :
    (ofRose tree).prevSibling (tree.place path) = (prevPath? path).map tree.place := by
  rcases eq_nil_or_snoc path with rfl | ⟨above, i, rfl⟩
  · rfl
  · obtain ⟨parent, parentFound, selected⟩ := at?_of_snoc found
    obtain ⟨before, after, position, whole, place⟩ := levels_child parentFound selected
    rw [Outline.prevSibling, take_entries place whole, prevPath?_snoc, List.length_append,
      List.length_singleton, Int.natCast_add]
    cases i with
    | zero =>
      -- Only the parent is met, and it is less deep.
      have back := siblingAmong_weigh before [] ((above.length : Int), parent.value)
        (above.length + 1) (above.length + 1) (by simp) (by simp only; omega)
      rw [Int.sub_self, if_neg (by simp only; omega)] at back
      simpa [forestLevels] using back
    | succ i =>
      -- The nodes below the previous sibling are passed over, then it is met itself.
      have bound : i < parent.children.length := by
        have := (List.getElem?_eq_some_iff.mp selected).1
        omega
      have taken : parent.children.take (i + 1) =
          parent.children.take i ++ [parent.children[i]] := by
        rw [List.take_add_one, List.getElem?_eq_getElem bound]
        rfl
      have deeper : ∀ other ∈ forestLevels (above.length + 1 + 1) parent.children[i].children,
          (above.length + 1 : Int) < other.1 := fun other member => by
        have := le_of_mem_forestLevels _ _ other member
        omega
      have back := siblingAmong_weigh
        (before ++ ((above.length : Int), parent.value) ::
          forestLevels (above.length + 1) (parent.children.take i))
        (forestLevels (above.length + 1 + 1) parent.children[i].children)
        ((above.length + 1 : Int), parent.children[i].value)
        (above.length + 1) (above.length + 1) deeper (by simp only; omega)
      rw [Int.sub_self, if_pos rfl] at back
      rw [if_neg (by omega), Nat.add_sub_cancel, Option.map_some, place_snoc parentFound, ← position,
        taken, forestLevels_append, forestLevels, forestLevels, List.append_nil, levels_eq]
      simp only [List.append_assoc, List.cons_append, List.length_append, List.length_cons,
        length_forestLevels] at back ⊢
      exact back.trans (congrArg some (by omega))

/-! ## All questions together -/

theorem contains_place {tree sub : Rose α} {path : List Nat} (found : tree.at? path = some sub)
    (n : Nat) :
    (ofRose tree).contains (tree.place path) n = true ↔
      ∃ rest item, tree.at? (path ++ rest) = some item ∧ tree.place (path ++ rest) = n := by
  rw [Outline.contains, stop_place found, Bool.and_eq_true, decide_eq_true_eq, decide_eq_true_eq]
  constructor
  · rintro ⟨lower, upper⟩
    have inside : n - tree.place path < sub.size := by omega
    -- Counted from its root, a position inside the subtree is the place of one of its nodes.
    obtain ⟨rest, item, -, below, position⟩ := exists_path inside
    refine ⟨rest, item, ?_, ?_⟩
    · rw [at?_append, found]
      exact below
    · rw [place_append found, position]
      omega
  · rintro ⟨rest, item, below, rfl⟩
    rw [at?_append, found, Option.bind_some] at below
    have inside := place_lt_size below
    rw [place_append found]
    omega

theorem parent_eq_some_iff {tree sub : Rose α} {path : List Nat} (found : tree.at? path = some sub)
    {n : Nat} (bound : n < tree.size) :
    (ofRose tree).parent n = some (tree.place path) ↔
      n ∈ (ofRose tree).children (tree.place path) := by
  obtain ⟨other, item, -, otherFound, rfl⟩ := exists_path bound
  rw [parent_place otherFound, children_place found, List.mem_map]
  constructor
  · intro same
    obtain ⟨above, isParent, position⟩ := Option.map_eq_some_iff.mp same
    rcases eq_nil_or_snoc other with rfl | ⟨upper, i, rfl⟩
    · simp at isParent
    · cases (parentPath?_snoc upper i).symm.trans isParent
      obtain ⟨parent, parentFound, selected⟩ := at?_of_snoc otherFound
      cases place_injective parentFound found position
      cases parentFound.symm.trans found
      have inRange := List.mem_range.mpr (List.getElem?_eq_some_iff.mp selected).1
      exact ⟨_, List.mem_map.mpr ⟨i, inRange, rfl⟩, rfl⟩
  · rintro ⟨childPath, member, position⟩
    obtain ⟨i, inRange, rfl⟩ := List.mem_map.mp member
    have inBounds := List.mem_range.mp inRange
    have selected : tree.at? (path ++ [i]) = some sub.children[i] := by
      rw [at?_snoc found, List.getElem?_eq_getElem]
    cases place_injective selected otherFound position
    rw [parentPath?_snoc, Option.map_some]

end Outline

/-- The outline `o` answers every question about the node `n` as the tree does about the node at
`path`, where its subtree is `sub`. -/
structure Charted (o : Outline α) (n : Nat) (tree : Rose α) (path : List Nat) (sub : Rose α) :
    Prop where
  get? : o.get? n = some sub.value
  parent : o.parent n = (Rose.parentPath? path).map tree.place
  firstChild : o.firstChild n = (Rose.childPaths path sub).head?.map tree.place
  lastChild : o.lastChild n = (Rose.childPaths path sub).getLast?.map tree.place
  nextSibling : o.nextSibling n = (tree.nextPath? path).map tree.place
  prevSibling : o.prevSibling n = (Rose.prevPath? path).map tree.place
  children : o.children n = (Rose.childPaths path sub).map tree.place
  child : ∀ i, o.child n i = (Rose.childPaths path sub)[i]?.map tree.place
  childCount : o.childCount n = sub.children.length
  depth : o.depth n = path.length
  stop : o.stop n = n + sub.size
  deepSize : o.deepSize n = sub.size
  /-- The node that follows the subtree. -/
  deepWeight : ∀ next item, tree.at? next = some item → tree.place next = o.stop n →
    o.deepWeight n = next.length - path.length
  /-- The place past the last node counts as level `-1`. -/
  deepWeight_last : o.stop n = o.size → o.deepWeight n = -1 - path.length
  isLeaf : o.isLeaf n = sub.children.isEmpty
  contains : ∀ m, o.contains n m = true ↔
    ∃ rest item, tree.at? (path ++ rest) = some item ∧ tree.place (path ++ rest) = m
  parent_iff : ∀ m, m < o.size → (o.parent m = some n ↔ m ∈ o.children n)

theorem Outline.lt_size_iff (tree : Rose α) (n : Nat) :
    n < (Outline.ofRose tree).size ↔
      ∃ path sub, tree.at? path = some sub ∧ tree.place path = n := by
  rw [Outline.size_ofRose]
  constructor
  · intro bound
    obtain ⟨path, sub, -, found, position⟩ := Rose.exists_path bound
    exact ⟨path, sub, found, position⟩
  · rintro ⟨path, sub, found, rfl⟩
    exact Rose.place_lt_size found

theorem charted_place {tree sub : Rose α} {path : List Nat} (found : tree.at? path = some sub) :
    Charted (Outline.ofRose tree) (tree.place path) tree path sub := by
  have children := Outline.children_place found
  have span := Outline.span_place found
  have stop := Outline.stop_place found
  -- The weights of a subtree add up to the difference between two levels.
  have total : (Outline.ofRose tree).deepWeight (tree.place path) =
      tree.levelAt ((Outline.ofRose tree).stop (tree.place path)) - path.length := by
    rw [Outline.deepWeight, span, stop]
  constructor
  case get? => exact Outline.get?_place found
  case parent => exact Outline.parent_place found
  case firstChild =>
    rw [Outline.firstChild_place found, Rose.childPaths]
    cases sub.children with
    | nil => rfl
    | cons first rest => simp [List.range_succ_eq_map]
  case lastChild => rw [Outline.lastChild, children, List.getLast?_map]
  case nextSibling => exact Outline.nextSibling_place found
  case prevSibling => exact Outline.prevSibling_place found
  case children => exact children
  case child =>
    intro i
    rw [Outline.child, children, List.getElem?_map]
  case childCount => simp [Outline.childCount, children, Rose.childPaths]
  case depth => exact Outline.depth_place found
  case stop => exact stop
  case deepSize =>
    rw [Outline.deepSize, stop]
    omega
  case deepWeight =>
    intro next item nextFound position
    rw [total, ← position, Rose.levelAt_place nextFound]
  case deepWeight_last =>
    intro last
    rw [total, last, Outline.size_ofRose, Rose.levelAt_size]
  case isLeaf => exact Outline.isLeaf_place found
  case contains => exact Outline.contains_place found
  case parent_iff =>
    intro m bound
    rw [Outline.size_ofRose] at bound
    exact Outline.parent_eq_some_iff found bound

end StepScript
