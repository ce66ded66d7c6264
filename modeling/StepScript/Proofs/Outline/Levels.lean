import StepScript.Proofs.Outline.Paths
import StepScript.Outline.Edit

/-! Outlines by levels.

A second listing of a tree gives with every node its level in place of its
weight. Listings by level join without any repair, and `weigh` turns one into
entries: each weight is the level that follows minus the own one. What lies in
front of a subtree and what lies behind it does not depend on the subtree, which
`levels_modifyAt` says once for every edit.
-/

set_option autoImplicit false

namespace StepScript

variable {α : Type}

namespace Rose

mutual

def levels (level : Int) : Rose α → List (Int × α)
  | node value children => (level, value) :: forestLevels (level + 1) children

def forestLevels (level : Int) : List (Rose α) → List (Int × α)
  | [] => []
  | tree :: rest => tree.levels level ++ forestLevels level rest

end

def modifyAt (f : Rose α → Rose α) : List Nat → Rose α → Rose α
  | [], tree => f tree
  | i :: path, node value children => node value (children.modify i (modifyAt f path))

theorem levels_eq (tree : Rose α) (level : Int) :
    tree.levels level = (level, tree.value) :: forestLevels (level + 1) tree.children := by
  cases tree
  rfl

theorem forestLevels_append (first rest : List (Rose α)) (level : Int) :
    forestLevels level (first ++ rest) = forestLevels level first ++ forestLevels level rest := by
  induction first with
  | nil => rfl
  | cons tree first ih => simp only [List.cons_append, forestLevels, ih, List.append_assoc]

theorem forestLevels_split {trees : List (Rose α)} {i : Nat} {tree : Rose α}
    (found : trees[i]? = some tree) (level : Int) :
    forestLevels level trees = forestLevels level (trees.take i) ++
      (tree.levels level ++ forestLevels level (trees.drop (i + 1))) := by
  obtain ⟨bound, rfl⟩ := List.getElem?_eq_some_iff.mp found
  conv => lhs; rw [← List.take_append_drop i trees, List.drop_eq_getElem_cons bound]
  rw [forestLevels_append, forestLevels]

mutual

theorem length_levels : ∀ (tree : Rose α) (level : Int), (tree.levels level).length = tree.size
  | node value children, level => by
    simp only [levels, size, List.length_cons, length_forestLevels children]

theorem length_forestLevels : ∀ (trees : List (Rose α)) (level : Int),
    (forestLevels level trees).length = forestSize trees
  | [], _ => rfl
  | tree :: rest, level => by
    simp only [forestLevels, forestSize, List.length_append, length_levels tree,
      length_forestLevels rest]

end

mutual

theorem le_of_mem_levels : ∀ (tree : Rose α) (level : Int),
    ∀ item ∈ tree.levels level, level ≤ item.1
  | node value children, level, item, member => by
    simp only [levels, List.mem_cons] at member
    rcases member with rfl | member
    · exact Int.le_refl _
    · have deeper := le_of_mem_forestLevels children (level + 1) item member
      omega

theorem le_of_mem_forestLevels : ∀ (trees : List (Rose α)) (level : Int),
    ∀ item ∈ forestLevels level trees, level ≤ item.1
  | [], _, _, member => by simp [forestLevels] at member
  | tree :: rest, level, item, member => by
    simp only [forestLevels, List.mem_append] at member
    rcases member with member | member
    · exact le_of_mem_levels tree level item member
    · exact le_of_mem_forestLevels rest level item member

end

end Rose

namespace Outline

open Rose

def firstLevel (stop : Int) : List (Int × α) → Int
  | [] => stop
  | (level, _) :: _ => level

/-- The entries of a listing that is followed by a node at level `stop`. -/
def weigh (stop : Int) : List (Int × α) → List (Entry α)
  | [] => []
  | (level, value) :: rest => ⟨firstLevel stop rest - level, value⟩ :: weigh stop rest

@[simp] theorem firstLevel_nil (stop : Int) : firstLevel stop ([] : List (Int × α)) = stop := rfl

@[simp] theorem firstLevel_cons (stop : Int) (item : Int × α) (rest : List (Int × α)) :
    firstLevel stop (item :: rest) = item.1 := rfl

theorem firstLevel_append (stop : Int) (first rest : List (Int × α)) :
    firstLevel stop (first ++ rest) = firstLevel (firstLevel stop rest) first := by
  cases first <;> rfl

@[simp] theorem firstLevel_levels (stop level : Int) (tree : Rose α) :
    firstLevel stop (tree.levels level) = level := by
  cases tree
  rfl

theorem firstLevel_forestLevels (stop level : Int) (trees : List (Rose α)) :
    firstLevel stop (forestLevels level trees) = if trees.isEmpty then stop else level := by
  cases trees with
  | nil => rfl
  | cons tree rest => simp [forestLevels, firstLevel_append]

@[simp] theorem length_weigh (stop : Int) (items : List (Int × α)) :
    (weigh stop items).length = items.length := by
  induction items with
  | nil => rfl
  | cons item rest ih => simp [weigh, ih]

/-- Only the last node of the first part sees the second. -/
theorem weigh_append (stop : Int) (first rest : List (Int × α)) :
    weigh stop (first ++ rest) = weigh (firstLevel stop rest) first ++ weigh stop rest := by
  induction first with
  | nil => rfl
  | cons item first ih => simp [weigh, ih, firstLevel_append]

mutual

/-- The entries of a tree are its weighed listing, whatever level it begins at. -/
theorem entriesBefore_eq_weigh : ∀ (tree : Rose α) (after level : Int),
    tree.entriesBefore after = weigh (level + after) (tree.levels level)
  | node value children, after, level => by
    have below := forestBefore_eq_weigh children (after - 1) (level + 1)
    have stop : level + 1 + (after - 1) = level + after := by omega
    rw [stop] at below
    simp only [entriesBefore, levels, weigh, below, firstLevel_forestLevels]
    congr 2
    split <;> omega

theorem forestBefore_eq_weigh : ∀ (trees : List (Rose α)) (after level : Int),
    forestBefore after trees = weigh (level + after) (forestLevels level trees)
  | [], _, _ => rfl
  | tree :: rest, after, level => by
    simp only [forestBefore, forestLevels, weigh_append, firstLevel_forestLevels,
      entriesBefore_eq_weigh tree _ level, forestBefore_eq_weigh rest after level]
    congr 2
    split <;> omega

end

theorem entries_ofRose (tree : Rose α) : (ofRose tree).entries = weigh (-1) (tree.levels 0) := by
  have listed := entriesBefore_eq_weigh tree (-1) 0
  rwa [Int.zero_add] at listed

@[simp] theorem size_ofRose (tree : Rose α) : (ofRose tree).size = tree.size := by
  rw [size, entries_ofRose, length_weigh, length_levels]

mutual

theorem finishes_entriesBefore : ∀ (tree : Rose α) (after depth : Int) (rest : List (Entry α)),
    1 ≤ depth → after ≤ 1 →
      finishes (tree.entriesBefore after ++ rest) depth = finishes rest (depth + after)
  | node value [], after, depth, rest, inside, small => by
    simp [entriesBefore, forestBefore, finishes, inside, small]
  | node value (first :: others), after, depth, rest, inside, small => by
    have below := finishes_forestBefore (first :: others) (after - 1) (depth + 1) rest (by simp)
      (by omega) (by omega)
    have back : depth + 1 + (after - 1) = depth + after := by omega
    rw [back] at below
    simp [entriesBefore, finishes, inside, below]

theorem finishes_forestBefore : ∀ (trees : List (Rose α)) (after depth : Int)
    (rest : List (Entry α)), trees ≠ [] → 1 ≤ depth → after ≤ 1 →
      finishes (forestBefore after trees ++ rest) depth = finishes rest (depth + after)
  | [], _, _, _, nonempty, _, _ => absurd rfl nonempty
  | [tree], after, depth, rest, _, inside, small => by
    simpa [forestBefore] using finishes_entriesBefore tree after depth rest inside small
  | tree :: next :: others, after, depth, rest, _, inside, small => by
    rw [forestBefore, List.append_assoc]
    simp only [List.isEmpty_cons, Bool.false_eq_true, if_false]
    rw [finishes_entriesBefore tree 0 depth _ inside (by omega), Int.add_zero]
    exact finishes_forestBefore (next :: others) after depth rest (by simp) inside small

end

theorem isWellFormed_ofRose (tree : Rose α) : (ofRose tree).isWellFormed = true := by
  obtain ⟨value, children⟩ := tree
  cases children with
  | nil => simp [isWellFormed, ofRose, entriesBefore, forestBefore, finishes]
  | cons first others =>
    have below := finishes_forestBefore (first :: others) (-2) 1 [] (by simp) (by omega) (by omega)
    rw [List.append_nil] at below
    simpa [isWellFormed, ofRose, entriesBefore, finishes] using below

end Outline

namespace Rose

open Outline (firstLevel firstLevel_append firstLevel_forestLevels)

/-- What lies in front of a subtree and behind it, the same before and after the
subtree is changed. What lies behind begins no deeper than the subtree. -/
theorem levels_modifyAt {tree sub : Rose α} {path : List Nat} (found : tree.at? path = some sub)
    (level : Int) :
    ∃ before after : List (Int × α), before.length = tree.place path ∧
      (∀ stop, stop ≤ level → firstLevel stop after ≤ level + path.length) ∧
      tree.levels level = before ++ (sub.levels (level + path.length) ++ after) ∧
      ∀ f, (tree.modifyAt f path).levels level =
        before ++ ((f sub).levels (level + path.length) ++ after) := by
  induction path generalizing tree level with
  | nil =>
    cases found
    exact ⟨[], [], rfl, fun stop bound => by simpa using bound,
      by simp, fun f => by simp [modifyAt]⟩
  | cons i path ih =>
    obtain ⟨value, children⟩ := tree
    rw [at?_cons, Rose.children] at found
    obtain ⟨child, selected, found⟩ := Option.bind_eq_some_iff.mp found
    obtain ⟨before, after, position, ends, whole, changed⟩ := ih found (level + 1)
    have deeper : level + 1 + (path.length : Int) = level + (i :: path).length := by
      simp only [List.length_cons]
      omega
    rw [deeper] at whole changed ends
    -- The siblings in front of the child join what lies before, those behind it what lies after.
    refine ⟨(level, value) :: (forestLevels (level + 1) (children.take i) ++ before),
      after ++ forestLevels (level + 1) (children.drop (i + 1)), ?_, ?_, ?_, ?_⟩
    · simp only [List.length_cons, List.length_append, length_forestLevels, position, place,
        Rose.children, selected, Option.map_some, Option.getD_some]
      omega
    · intro stop bound
      -- What follows is a sibling of the child or lies outside, and neither is deeper than the subtree.
      rw [firstLevel_append, firstLevel_forestLevels]
      apply ends
      split <;> omega
    · rw [levels, forestLevels_split selected, whole]
      simp
    · intro f
      have modified : (children.modify i (modifyAt f path))[i]? = some (child.modifyAt f path) := by
        simp [selected]
      rw [modifyAt, levels, forestLevels_split modified, changed, List.take_modify,
        List.modify_eq_self (List.length_take_le i children), List.drop_modify_of_lt _ _ _ _ (Nat.lt_succ_self i)]
      simp

end Rose

end StepScript
