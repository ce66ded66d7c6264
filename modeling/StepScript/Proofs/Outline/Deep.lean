import StepScript.Proofs.Outline.Bounded

/-! Outlines that are too deep for 32 bits.

A spine goes down one level with each entry and comes back up at its end. Where it
ends the outline, the last weight leads from the deepest level past the end and is the
first number that does not fit. Where something stands behind it, all weights may fit,
and yet the sums along the spine do not.
-/

set_option autoImplicit false

namespace StepScript

variable {α : Type}

namespace Rose

/-- `n` nodes, each the only child of the one before, and a leaf below them. -/
def stem (value : α) : Nat → Rose α
  | 0 => leaf value
  | n + 1 => node value [stem value n]

def fork (value : α) (n : Nat) : Rose α :=
  node value [stem value n, leaf value]

theorem entriesBefore_stem (value : α) (n : Nat) (after : Int) :
    (stem value n).entriesBefore after = List.replicate n ⟨1, value⟩ ++ [⟨after - n, value⟩] := by
  induction n generalizing after with
  | zero =>
    have last : after - (0 : Nat) = after := by omega
    rw [last]
    rfl
  | succ n ih =>
    have last : after - 1 - (n : Int) = after - (n + 1 : Nat) := by omega
    rw [stem, entriesBefore, forestBefore, forestBefore, List.append_nil]
    simp only [List.isEmpty_cons, List.isEmpty_nil, Bool.false_eq_true, if_false, if_true, ih, last,
      List.replicate_succ, List.cons_append]

end Rose

namespace Outline

open Rose

def chain (value : α) (n : Nat) : Outline α :=
  ⟨List.replicate n ⟨1, value⟩ ++ [⟨-(n + 1), value⟩]⟩

/-- `n` nodes, each the parent of the next entry, a leaf below them, and what follows it at level
`after`. -/
def spine (value : α) (n : Nat) (after : Int) (rest : List (Entry α)) : Outline α :=
  ⟨List.replicate n ⟨1, value⟩ ++ ⟨after - n, value⟩ :: rest⟩

variable (value : α) (n : Nat) (after : Int) (rest : List (Entry α))

theorem chain_eq_spine : chain value n = spine value n (-1) [] := by
  have last : (-(n + 1) : Int) = -1 - n := by omega
  rw [chain, spine, last]

theorem ofRose_stem : ofRose (stem value n) = chain value n := by
  rw [chain_eq_spine, ofRose, entriesBefore_stem]
  rfl

theorem ofRose_node_stem (other : Rose α) (others : List (Rose α)) :
    ofRose (node value (stem value n :: other :: others)) =
      spine value (n + 1) 1 (forestBefore (-2) (other :: others)) := by
  have last : (1 - (n + 1 : Nat) : Int) = 0 - n := by omega
  rw [ofRose, entriesBefore, forestBefore, List.isEmpty_cons]
  simp only [List.isEmpty_cons, Bool.false_eq_true, if_false, entriesBefore_stem, spine, last,
    List.replicate_succ, List.cons_append, List.append_assoc]
  rfl

theorem ofRose_fork : ofRose (fork value n) = spine value (n + 1) 1 [⟨-2, value⟩] :=
  ofRose_node_stem value n _ _

theorem size_spine : (spine value n after rest).size = n + 1 + rest.length := by
  simp [spine, size]
  omega

theorem size_stem : (stem value n).size = n + 1 := by
  rw [← size_ofRose, ofRose_stem, chain_eq_spine, size_spine]
  rfl

theorem size_fork : (ofRose (fork value n)).size = n + 3 := by
  rw [ofRose_fork, size_spine]
  rfl

theorem size_fork_le (few : n ≤ 2147483648) : (ofRose (fork value n)).size ≤ capacity := by
  rw [size_fork]
  show n + 3 ≤ 4294967295
  omega

theorem weight_spine : (spine value n after rest).weight n = after - n := by
  simp [spine, weight]

theorem isLeaf_spine (up : after ≤ n) : (spine value n after rest).isLeaf n = true := by
  rw [isLeaf, weight_spine]
  exact decide_eq_true (by omega)

theorem totalWeight_replicate :
    totalWeight (List.replicate n (⟨1, value⟩ : Entry α)) = n := by
  induction n with
  | zero => rfl
  | succ n ih =>
    rw [totalWeight] at ih ⊢
    rw [List.replicate_succ, List.foldr_cons, ih]
    show (1 : Int) + n = (n + 1 : Nat)
    omega

theorem depth_spine : (spine value n after rest).depth n = n := by
  have front : (spine value n after rest).entries.take n = List.replicate n ⟨1, value⟩ := by
    simp [spine]
  rw [depth, front, totalWeight_replicate, Int.toNat_natCast]

/-! ## Growing at the end -/

/-- The leaf becomes a node like those above it, and a new leaf follows. -/
theorem splice_spine : splice (reweigh (spine value n after rest).entries n 1) (n + 1)
    [⟨after - n - 1, value⟩] = (spine value (n + 1) after rest).entries := by
  have inner : reweigh (spine value n after rest).entries n 1 =
      List.replicate (n + 1) ⟨1, value⟩ ++ rest := by
    have last := modify_append_right (List.replicate n (⟨1, value⟩ : Entry α))
      (⟨after - n, value⟩ :: rest) 0 fun entry => { entry with weight := 1 }
    rw [List.length_replicate] at last
    rw [reweigh, spine, List.replicate_succ', List.append_assoc]
    exact last
  have below : after - n - 1 = after - (n + 1 : Nat) := by omega
  have split := splice_append (List.replicate (n + 1) (⟨1, value⟩ : Entry α)) rest
    [⟨after - (n + 1 : Nat), value⟩]
  rw [List.length_replicate] at split
  rw [inner, below, split, spine, List.append_assoc]
  rfl

section

variable {value n after rest} (room : n + 1 + rest.length < capacity) (up : after ≤ n)
include room

theorem checks_spine : (spine value n after rest).checkNode n = .ok () ∧
    (spine value n after rest).checkRoom 1 = .ok () := by
  rw [checkNode, checkRoom, size_spine]
  exact ⟨if_pos (by omega), if_neg (by omega)⟩

include up

theorem append_spine : (spine value n after rest).append n value =
    .ok (spine value (n + 1) after rest, n + 1) := by
  obtain ⟨node, more⟩ := checks_spine room
  rw [append, node, more, isLeaf_spine value n after rest up, weight_spine]
  simp only [if_true, splice_spine]
  rfl

theorem append_spine_bounded : Bounded.append (spine value n after rest) n value =
    if Fits (after - n - 1) then some (.ok (spine value (n + 1) after rest, n + 1)) else none := by
  obtain ⟨node, more⟩ := checks_spine room
  rw [Bounded.append, node, more, Bounded.checked, Bounded.checked,
    isLeaf_spine value n after rest up, weight_spine]
  simp only [if_true, Bounded.fit]
  split
  · simp only [bind, Option.bind_some, splice_spine]
    rfl
  · rfl

end

/-! ## Sums that do not fit -/

variable {value n after rest}

theorem extent_replicate {sum : Int} (start : 0 ≤ sum ∧ sum ≤ 2147483647)
    (many : 2147483648 ≤ sum + n) :
    Bounded.extent (List.replicate n ⟨1, value⟩ ++ rest) sum = none := by
  induction n generalizing sum with
  | zero => omega
  | succ n ih =>
    rw [List.replicate_succ, List.cons_append, Bounded.extent]
    by_cases last : sum = 2147483647
    · have large : ¬ Fits (sum + 1) := fun fits => by
        unfold Fits at fits
        omega
      rw [Bounded.fit, if_neg large, Option.bind_none]
    · have small : Fits (sum + 1) := by
        unfold Fits
        omega
      have next : 0 ≤ sum + 1 ∧ sum + 1 ≤ 2147483647 := by omega
      have more := ih next (by omega)
      rw [Bounded.fit_of_fits small, Option.bind_some, if_neg (by omega), more]
      rfl

theorem span_spine (many : 2147483648 ≤ n) : Bounded.span (spine value n after rest) 0 = none := by
  rw [Bounded.span, List.drop_zero, spine, extent_replicate (by decide) (by omega)]
  rfl

theorem depth_spine_bounded (many : 2147483648 ≤ n) :
    Bounded.depth (spine value n after rest) n = none := by
  refine Option.eq_none_iff_forall_ne_some.mpr fun found same => ?_
  obtain ⟨rfl, small⟩ := Bounded.depth_eq_some same
  rw [depth_spine] at small
  omega

theorem not_shallow_spine (many : 2147483648 ≤ n) : ¬ (spine value n after rest).Shallow := by
  intro shallow
  have depth := shallow n (by rw [size_spine]; omega)
  rw [depth_spine] at depth
  omega

theorem narrow_spine (last : Fits (after - n)) (behind : ∀ entry ∈ rest, Fits entry.weight) :
    (spine value n after rest).Narrow := by
  have inner : Fits 1 := by decide
  intro entry member
  simp only [spine, List.mem_append, List.mem_replicate, List.mem_cons] at member
  rcases member with ⟨-, rfl⟩ | rfl | later
  · exact inner
  · exact last
  · exact behind entry later

theorem narrow_fork (few : n ≤ 2147483648) : (ofRose (fork value n)).Narrow := by
  rw [ofRose_fork]
  have second : Fits (-2) := by decide
  refine narrow_spine ?_ (List.forall_mem_singleton.mpr second)
  unfold Fits
  omega

end Outline

end StepScript
