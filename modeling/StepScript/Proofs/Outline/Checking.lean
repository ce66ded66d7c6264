import Mathlib.Data.List.Basic
import Mathlib.Data.List.TakeWhile
import StepScript.Proofs.Outline.Deep

/-! What the check of the shape decides.

Entries that pass the check are those of a tree, and of one tree only. The tree is put
together from the last node to the first: a node takes for its children the trees behind it
that stand deeper than itself, up to the first one that does not. This undoes the listing of
any tree, and it loses nothing of a listing that never goes down more than one level at a
time.
-/

set_option autoImplicit false

namespace StepScript.Outline

variable {α : Type}

open Rose

/-! ## From weights to levels -/

def leveled (level : Int) : List (Entry α) → List (Int × α)
  | [] => []
  | entry :: rest => (level, entry.value) :: leveled (level + entry.weight) rest

theorem firstLevel_leveled (level : Int) (entries : List (Entry α)) :
    firstLevel (level + totalWeight entries) (leveled level entries) = level := by
  cases entries with
  | nil => exact Int.add_zero level
  | cons entry rest => rfl

theorem weigh_leveled (level : Int) (entries : List (Entry α)) :
    weigh (level + totalWeight entries) (leveled level entries) = entries := by
  induction entries generalizing level with
  | nil => rfl
  | cons entry rest ih =>
    have stop : level + totalWeight (entry :: rest) = level + entry.weight + totalWeight rest := by
      rw [totalWeight, List.foldr_cons, ← totalWeight, Int.add_assoc]
    have weight : level + entry.weight - level = entry.weight := by omega
    rw [leveled, weigh, stop, firstLevel_leveled, ih, weight]

theorem leveled_weigh (stop : Int) (items : List (Int × α)) :
    leveled (firstLevel stop items) (weigh stop items) = items := by
  induction items with
  | nil => rfl
  | cons item rest ih =>
    have next : item.1 + (firstLevel stop rest - item.1) = firstLevel stop rest := by omega
    rw [weigh, leveled, firstLevel_cons, next, ih]

theorem leveled_ofRose (tree : Rose α) : leveled 0 (ofRose tree).entries = tree.levels 0 := by
  have back := leveled_weigh (-1) (tree.levels 0)
  rwa [firstLevel_levels, ← entries_ofRose] at back

/-! ## From levels to trees -/

/-- The trees of a listing, each with the level of its root. -/
def planted : List (Int × α) → List (Int × Rose α)
  | [] => []
  | (level, value) :: rest =>
    let deeper (tree : Int × Rose α) : Bool := level < tree.1
    (level, .node value (((planted rest).takeWhile deeper).map (·.2))) ::
      (planted rest).dropWhile deeper

theorem takeWhile_planted {level : Int} {rest : List (Int × α)}
    (above : firstLevel level rest ≤ level) :
    (planted rest).takeWhile (fun tree => level < tree.1) = [] := by
  cases rest with
  | nil => rfl
  | cons item rest =>
    rw [firstLevel_cons] at above
    exact List.takeWhile_cons_of_neg (by simpa using above)

theorem dropWhile_planted {level : Int} {rest : List (Int × α)}
    (above : firstLevel level rest ≤ level) :
    (planted rest).dropWhile (fun tree => level < tree.1) = planted rest := by
  have split := List.takeWhile_append_dropWhile (p := fun tree => decide (level < tree.1))
    (l := planted rest)
  rwa [takeWhile_planted above] at split

mutual

/-- Where what follows a tree is no deeper than its root, the tree comes back. -/
theorem planted_levels : ∀ (tree : Rose α) (level : Int) (rest : List (Int × α)),
    firstLevel level rest ≤ level →
      planted (tree.levels level ++ rest) = (level, tree) :: planted rest
  | node value children, level, rest, above => by
    have higher : firstLevel (level + 1) rest ≤ level + 1 := by
      cases rest with
      | nil => exact Int.le_refl _
      | cons item rest =>
        rw [firstLevel_cons] at above ⊢
        omega
    have below := planted_forestLevels children (level + 1) rest higher
    have deeper : ∀ tree ∈ children.map (level + 1, ·), decide (level < tree.1) = true := by
      rw [List.forall_mem_map]
      exact fun _ _ => decide_eq_true (Int.lt_succ level)
    rw [levels, List.cons_append, planted, below]
    simp only [List.takeWhile_append_of_pos deeper, List.dropWhile_append_of_pos deeper,
      takeWhile_planted above, dropWhile_planted above, List.append_nil, List.map_map]
    rw [show (fun tree : Int × Rose α => tree.2) ∘ (level + 1, ·) = id from rfl, List.map_id]

theorem planted_forestLevels : ∀ (trees : List (Rose α)) (level : Int) (rest : List (Int × α)),
    firstLevel level rest ≤ level →
      planted (forestLevels level trees ++ rest) = trees.map (level, ·) ++ planted rest
  | [], _, _, _ => rfl
  | tree :: others, level, rest, above => by
    have next : firstLevel level (forestLevels level others ++ rest) ≤ level := by
      rw [firstLevel_append, firstLevel_forestLevels]
      split
      · exact above
      · exact Int.le_refl level
    rw [forestLevels, List.append_assoc, planted_levels tree level _ next,
      planted_forestLevels others level rest above]
    rfl

end

/-- A tree is the only one that has its entries. -/
theorem ofRose_injective {first second : Rose α} (same : ofRose first = ofRose second) :
    first = second := by
  have planted_eq (tree : Rose α) : planted (leveled 0 (ofRose tree).entries) = [(0, tree)] := by
    have back := planted_levels tree 0 [] (Int.le_refl 0)
    rwa [List.append_nil, ← leveled_ofRose] at back
  have trees := planted_eq first
  rw [same, planted_eq second] at trees
  cases trees
  rfl

/-! ## Listings that are those of trees -/

/-- No node stands more than one level below the node in front of it. -/
def Stepwise : List (Int × α) → Prop
  | [] => True
  | (level, _) :: rest => firstLevel level rest ≤ level + 1 ∧ Stepwise rest

/-- The roots of trees stand no deeper than the roots in front of them. -/
def Falling (trees : List (Int × Rose α)) : Prop :=
  trees.Pairwise fun first second => second.1 ≤ first.1

theorem forestLevels_eq_flatMap (level : Int) (trees : List (Rose α)) :
    forestLevels level trees = trees.flatMap (·.levels level) := by
  induction trees with
  | nil => rfl
  | cons tree rest ih => rw [forestLevels, List.flatMap_cons, ih]

theorem Falling.le_of_mem_dropWhile {trees : List (Int × Rose α)} (falling : Falling trees)
    {level : Int} : ∀ tree ∈ trees.dropWhile fun tree => level < tree.1, tree.1 ≤ level := by
  induction trees with
  | nil => exact List.forall_mem_nil _
  | cons first rest ih =>
    obtain ⟨below, later⟩ := List.pairwise_cons.mp falling
    rw [List.dropWhile_cons]
    split
    · exact ih later
    · next stops =>
      have here : first.1 ≤ level := by simpa using stops
      exact List.forall_mem_cons.mpr ⟨here, fun tree member => Int.le_trans (below tree member) here⟩

theorem falling_planted (items : List (Int × α)) : Falling (planted items) := by
  induction items with
  | nil => exact .nil
  | cons item rest ih =>
    exact List.pairwise_cons.mpr
      ⟨ih.le_of_mem_dropWhile, ih.sublist (List.dropWhile_sublist _)⟩

theorem le_of_mem_planted {level : Int} {items : List (Int × α)}
    (above : firstLevel level items ≤ level) : ∀ tree ∈ planted items, tree.1 ≤ level := by
  cases items with
  | nil => exact List.forall_mem_nil _
  | cons item rest =>
    have falling := List.pairwise_cons.mp (falling_planted (item :: rest))
    rw [firstLevel_cons] at above
    exact List.forall_mem_cons.mpr
      ⟨above, fun tree member => Int.le_trans (falling.1 tree member) above⟩

theorem exists_of_mem_planted {items : List (Int × α)} {tree : Int × Rose α}
    (member : tree ∈ planted items) : ∃ item ∈ items, item.1 = tree.1 := by
  induction items with
  | nil => cases member
  | cons item rest ih =>
    rcases List.mem_cons.mp member with rfl | later
    · exact ⟨item, List.mem_cons_self, rfl⟩
    · obtain ⟨root, inside, same⟩ := ih ((List.dropWhile_sublist _).subset later)
      exact ⟨root, List.mem_cons_of_mem _ inside, same⟩

theorem flatMap_planted {items : List (Int × α)} (stepwise : Stepwise items) :
    (planted items).flatMap (fun tree => tree.2.levels tree.1) = items := by
  induction items with
  | nil => rfl
  | cons item rest ih =>
    obtain ⟨level, value⟩ := item
    obtain ⟨step, later⟩ := stepwise
    have shallow : ∀ tree ∈ planted rest, tree.1 ≤ level + 1 := by
      apply le_of_mem_planted
      cases rest with
      | nil => exact Int.le_refl _
      | cons next rest => exact step
    -- What is deeper than the node, but not by more than one level, is a child of it.
    have children : ∀ tree ∈ (planted rest).takeWhile fun tree => level < tree.1,
        tree.2.levels (level + 1) = tree.2.levels tree.1 := by
      intro tree member
      have deeper : level < tree.1 := by
        simpa using List.mem_takeWhile_imp member
      have inside := shallow tree ((List.takeWhile_sublist _).subset member)
      rw [show tree.1 = level + 1 by omega]
    have split := List.takeWhile_append_dropWhile (p := fun tree => decide (level < tree.1))
      (l := planted rest)
    rw [planted, List.flatMap_cons, levels, forestLevels_eq_flatMap, List.flatMap_map,
      List.flatMap_congr children, List.cons_append, ← List.flatMap_append, split, ih later]

/-- A listing of one node and of nodes below it is that of a tree. -/
theorem exists_levels_eq {level : Int} {value : α} {rest : List (Int × α)}
    (stepwise : Stepwise ((level, value) :: rest)) (below : ∀ item ∈ rest, level < item.1) :
    ∃ tree : Rose α, tree.levels level = (level, value) :: rest := by
  have deeper : ∀ tree ∈ planted rest, decide (level < tree.1) = true := by
    intro tree member
    obtain ⟨item, inside, same⟩ := exists_of_mem_planted member
    exact decide_eq_true (same ▸ below item inside)
  -- The first node takes all other trees, so that none is left beside its own.
  have whole := flatMap_planted stepwise
  rw [planted, List.dropWhile_eq_nil_iff.mpr deeper, List.flatMap_singleton] at whole
  exact ⟨_, whole⟩

/-! ## Entries that are those of trees -/

section

variable {entries : List (Entry α)} {level : Int}

theorem stepwise_leveled (small : ∀ entry ∈ entries, entry.weight ≤ 1) :
    Stepwise (leveled level entries) := by
  induction entries generalizing level with
  | nil => trivial
  | cons entry rest ih =>
    obtain ⟨here, later⟩ := List.forall_mem_cons.mp small
    refine ⟨?_, ih later⟩
    cases rest with
    | nil =>
      rw [leveled, firstLevel_nil]
      omega
    | cons next rest =>
      rw [leveled, firstLevel_cons]
      omega

theorem weight_le_of_finishes (finished : finishes entries level = true) :
    ∀ entry ∈ entries, entry.weight ≤ 1 := by
  induction entries generalizing level with
  | nil => exact List.forall_mem_nil _
  | cons entry rest ih =>
    simp only [finishes, Bool.and_eq_true, decide_eq_true_eq] at finished
    exact List.forall_mem_cons.mpr ⟨finished.1.2, ih finished.2⟩

/-- All nodes that finish a tree stand below its root. -/
theorem le_leveled_of_finishes (finished : finishes entries level = true) :
    ∀ item ∈ leveled level entries, 1 ≤ item.1 := by
  induction entries generalizing level with
  | nil => exact List.forall_mem_nil _
  | cons entry rest ih =>
    simp only [finishes, Bool.and_eq_true, decide_eq_true_eq] at finished
    exact List.forall_mem_cons.mpr ⟨finished.1.1, ih finished.2⟩

end

theorem grown_of_isWellFormed {t : Outline α} (sound : t.isWellFormed = true) : t.Grown := by
  have total := totalWeight_of_isWellFormed sound
  obtain ⟨entries⟩ := t
  cases entries with
  | nil => cases sound
  | cons root rest =>
    rw [isWellFormed, Bool.and_eq_true, decide_eq_true_eq] at sound
    obtain ⟨small, finished⟩ := sound
    have steps : Stepwise (leveled 0 (root :: rest)) :=
      stepwise_leveled (List.forall_mem_cons.mpr ⟨small, weight_le_of_finishes finished⟩)
    have below : ∀ item ∈ leveled (0 + root.weight) rest, 0 < item.1 := by
      rw [Int.zero_add]
      exact le_leveled_of_finishes finished
    obtain ⟨tree, whole⟩ := exists_levels_eq steps below
    have entries : (ofRose tree).entries = root :: rest := by
      rw [entries_ofRose, whole, ← total, ← Int.zero_add (totalWeight _)]
      exact weigh_leveled 0 (root :: rest)
    exact ⟨tree, congrArg Outline.mk entries.symm⟩

/-! ## The check with 32 bits -/

namespace Bounded

variable {entries : List (Entry α)} {level : Int} {t : Outline α}

theorem sound_finishes : Sound (finishes entries level) (Outline.finishes entries level) := by
  induction entries generalizing level with
  | nil => exact .some _
  | cons entry rest ih =>
    rw [finishes, Outline.finishes]
    split
    · next passes =>
      rw [passes, Bool.true_and]
      exact (Sound.fit _).bind ih
    · next stops =>
      rw [Bool.eq_false_iff.mpr stops, Bool.false_and]
      exact .some _

theorem finishes_eq (narrow : ∀ entry ∈ entries, Fits entry.weight)
    (few : level + entries.length < 2147483648) :
    finishes entries level = some (Outline.finishes entries level) := by
  induction entries generalizing level with
  | nil => rfl
  | cons entry rest ih =>
    obtain ⟨fits, later⟩ := List.forall_mem_cons.mp narrow
    rw [List.length_cons] at few
    rw [finishes, Outline.finishes]
    split
    · next passes =>
      have small := passes
      rw [Bool.and_eq_true, decide_eq_true_eq, decide_eq_true_eq] at small
      have sum : Fits (level + entry.weight) := by
        unfold Fits at fits ⊢
        omega
      rw [fit_of_fits sum, Option.bind_some, passes, Bool.true_and]
      exact ih later (by omega)
    · next stops => rw [Bool.eq_false_iff.mpr stops, Bool.false_and]

theorem sound_isWellFormed (t : Outline α) : Sound (isWellFormed t) t.isWellFormed := by
  obtain ⟨entries⟩ := t
  cases entries with
  | nil => exact .some _
  | cons root rest =>
    rw [isWellFormed, Outline.isWellFormed]
    simp only
    split
    · next small =>
      rw [decide_eq_true small, Bool.true_and]
      exact (Sound.fit _).bind sound_finishes
    · next large =>
      rw [decide_eq_false large, Bool.false_and]
      exact .some _

theorem isWellFormed_eq (narrow : t.Narrow) (few : t.size < 2147483648) :
    isWellFormed t = some t.isWellFormed := by
  obtain ⟨entries⟩ := t
  cases entries with
  | nil => rfl
  | cons root rest =>
    obtain ⟨fits, later⟩ := List.forall_mem_cons.mp narrow
    rw [size, List.length_cons] at few
    rw [isWellFormed, Outline.isWellFormed]
    simp only
    split
    · next small =>
      rw [fit_of_fits fits, Option.bind_some, decide_eq_true small, Bool.true_and]
      exact finishes_eq later (by omega)
    · next large => rw [decide_eq_false large, Bool.false_and]

end Bounded

theorem isWellFormed_iff_exists (t : Outline α) :
    t.isWellFormed = true ↔ ∃ tree, ofRose tree = t := by
  constructor
  · intro sound
    obtain ⟨tree, same⟩ := grown_of_isWellFormed sound
    exact ⟨tree, same.symm⟩
  · rintro ⟨tree, rfl⟩
    exact isWellFormed_ofRose tree

/-- With 32 bits the check of the shape passes the outlines of shallow trees and nothing else, and
it refuses only entries that are those of no tree; there is never more than one such tree. It is
exact for all entries whose weights fit if there are fewer than `2 ^ 31` of them. Beyond that a tree
may be too deep: of a fork whose weights all fit, and which has room, the check gives no answer. -/
theorem isWellFormed_iff_ofRose (t : Outline α) (value : α) :
    (Bounded.isWellFormed t = some true ↔ (∃ tree, ofRose tree = t) ∧ t.Shallow) ∧
    (Bounded.isWellFormed t = some false → ¬ ∃ tree, ofRose tree = t) ∧
    (∀ first second : Rose α, ofRose first = t → ofRose second = t → first = second) ∧
    (t.Narrow → t.size < 2147483648 →
      (Bounded.isWellFormed t = some true ↔ ∃ tree, ofRose tree = t) ∧
      (Bounded.isWellFormed t = some false ↔ ¬ ∃ tree, ofRose tree = t)) ∧
    (t.isWellFormed = true ↔ ∃ tree, ofRose tree = t) ∧
    ∀ n, 2147483647 ≤ n → n ≤ 2147483648 →
      (ofRose (fork value n)).size ≤ capacity ∧ (ofRose (fork value n)).Narrow ∧
        Bounded.isWellFormed (ofRose (fork value n)) = none := by
  have exact := isWellFormed_iff_exists t
  have right := Bounded.sound_isWellFormed t
  refine ⟨⟨fun passed => ?_, ?_⟩, fun refused tree => ?_, ?_, fun narrow few => ?_, exact,
    fun n many few => ?_⟩
  · have sound := (right true passed).symm
    exact ⟨exact.mp sound, (grown_of_isWellFormed sound).isWellFormed_iff.mp passed⟩
  · rintro ⟨⟨tree, rfl⟩, shallow⟩
    exact Grown.isWellFormed_iff ⟨tree, rfl⟩ |>.mpr shallow
  · have wrong := right false refused
    rw [exact.mpr tree] at wrong
    cases wrong
  · rintro first second same rfl
    exact ofRose_injective same
  · rw [Bounded.isWellFormed_eq narrow few, ← exact]
    simp
  · have grown : (ofRose (fork value n)).Grown := ⟨_, rfl⟩
    refine ⟨size_fork_le value n few, narrow_fork few, grown.isWellFormed_eq_none ?_⟩
    rw [ofRose_fork]
    exact not_shallow_spine (by omega)

/-- A second root is found, and so is a node two levels below the one in front of it. -/
theorem isWellFormed_iff_ofRose_of_broken :
    let siblings : Outline Char := ⟨[⟨1, 'a'⟩, ⟨0, 'b'⟩, ⟨-2, 'c'⟩]⟩
    let twoRoots : Outline Char := ⟨[⟨1, 'a'⟩, ⟨-1, 'b'⟩, ⟨-1, 'c'⟩]⟩
    let jump : Outline Char := ⟨[⟨2, 'a'⟩, ⟨-3, 'b'⟩]⟩
    (∃ tree, ofRose tree = siblings) ∧ Bounded.isWellFormed siblings = some true ∧
      (¬ ∃ tree, ofRose tree = twoRoots) ∧ Bounded.isWellFormed twoRoots = some false ∧
      (¬ ∃ tree, ofRose tree = jump) ∧ Bounded.isWellFormed jump = some false ∧
      Bounded.isWellFormed (ofRose (fork 'a' 2147483648)) = none := by
  intro siblings twoRoots jump
  have narrowSiblings : siblings.Narrow := by simp [siblings, Narrow, Fits]
  have narrowRoots : twoRoots.Narrow := by simp [twoRoots, Narrow, Fits]
  have narrowJump : jump.Narrow := by simp [jump, Narrow, Fits]
  obtain ⟨-, -, -, some, tree, deep⟩ := isWellFormed_iff_ofRose siblings 'a'
  obtain ⟨-, -, -, noRoots, -⟩ := isWellFormed_iff_ofRose twoRoots 'a'
  obtain ⟨-, -, -, noJump, -⟩ := isWellFormed_iff_ofRose jump 'a'
  have passed : ∃ tree, ofRose tree = siblings := tree.mp (by decide)
  have refusedRoots : Bounded.isWellFormed twoRoots = .some false := by decide
  have refusedJump : Bounded.isWellFormed jump = .some false := by decide
  exact ⟨passed, (some narrowSiblings (by decide)).1.mpr passed,
    (noRoots narrowRoots (by decide)).2.mp refusedRoots, refusedRoots,
    (noJump narrowJump (by decide)).2.mp refusedJump, refusedJump,
    (deep 2147483648 (by decide) (Nat.le_refl _)).2.2⟩

end StepScript.Outline
