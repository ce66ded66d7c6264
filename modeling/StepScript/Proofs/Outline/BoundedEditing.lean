import StepScript.Proofs.Outline.Bounded

/-! Edits with weights of 32 bits.

What an edit does with weights of 32 bits is what it does with weights of any size,
as long as the outline is shallow before the edit and after it. Each weight that is
computed on the way is one of the outline that results, or it is the difference of
two levels.
-/

set_option autoImplicit false

namespace StepScript.Outline

variable {α β : Type}

theorem weight_eq_getElem {entries : List (Entry α)} {k : Nat} (inside : k < entries.length) :
    weight ⟨entries⟩ k = entries[k].weight := by
  simp [weight, List.getElem?_eq_getElem inside]

theorem mem_splice {entries inserted : List (Entry α)} {node : Nat} {entry : Entry α} :
    entry ∈ splice entries node inserted ↔ entry ∈ entries ∨ entry ∈ inserted := by
  rw [splice, List.append_assoc, List.mem_append, List.mem_append]
  conv => rhs; rw [← List.take_append_drop node entries, List.mem_append]
  tauto

namespace Bounded

/-! ## Edits -/

theorem checked_eq {check : Except OutlineError Unit} {next : Option (Except OutlineError β)}
    {rest : Except OutlineError β} (agree : check = .ok () → next = some rest) :
    checked check next = some (check >>= fun _ => rest) := by
  cases check with
  | error e => rfl
  | ok => exact agree rfl

theorem inside_of_checkNode {t : Outline α} {node : Nat} (passed : t.checkNode node = .ok ()) :
    node < t.size := by
  unfold checkNode at passed
  split at passed
  case isTrue inside => exact inside
  case isFalse => cases passed

theorem reweigh_weight_add (entries : List (Entry α)) (k : Nat) (amount : Int) :
    reweigh entries k (weight ⟨entries⟩ k + amount) = Outline.shift entries k amount := by
  rcases Nat.lt_or_ge k entries.length with inside | past
  · rw [weight_eq_getElem inside, reweigh, Outline.shift, List.modify_eq_take_cons_drop inside,
      List.modify_eq_take_cons_drop inside]
  · rw [reweigh, Outline.shift, List.modify_eq_self past, List.modify_eq_self past]

theorem shift_eq {entries : List (Entry α)} {k : Nat} {amount : Int}
    (fits : Fits (weight ⟨entries⟩ k + amount)) :
    shift entries k amount = some (Outline.shift entries k amount) := by
  rw [shift, fit_of_fits fits, Option.map_some, reweigh_weight_add]

theorem weight_mem_shift {entries : List (Entry α)} {k : Nat} (inside : k < entries.length)
    (amount : Int) {n : Nat} (before : n ≤ k) :
    ⟨weight ⟨entries⟩ k + amount, entries[k].value⟩ ∈
      (Outline.shift entries k amount).drop n := by
  have short : n ≤ (entries.take k).length := by
    rw [List.length_take]
    omega
  rw [Outline.shift, List.modify_eq_take_cons_drop inside, weight_eq_getElem inside,
    List.drop_append_of_le_length short]
  simp

/-- A weight is shifted where the result is narrow. -/
theorem shift_eq_of_narrow {entries : List (Entry α)} {k : Nat} {amount : Int}
    (inside : k < entries.length)
    (narrow : ∀ entry ∈ Outline.shift entries k amount, Fits entry.weight) :
    shift entries k amount = some (Outline.shift entries k amount) :=
  shift_eq (narrow _ (weight_mem_shift inside amount (Nat.zero_le k)))

theorem prepend_eq {t : Outline α} {parent : Nat} {value : α}
    (after : ∀ changed n, t.prepend parent value = .ok (changed, n) → changed.Narrow) :
    prepend t parent value = some (t.prepend parent value) := by
  rw [Outline.prepend] at after ⊢
  refine checked_eq fun inside => checked_eq fun room => ?_
  rw [inside, room] at after
  have narrow := after _ _ rfl
  have fits : Fits (t.weight parent - 1) := narrow ⟨_, value⟩ (mem_splice.mpr (.inr (by simp)))
  rw [fit_of_fits fits]
  rfl

end Bounded

open Rose

/-- The subtree of a node ends behind the node and not behind the end, and its total is not
positive; its root is not so deep that the next level is out of reach. -/
theorem span_bounds {t : Outline α} (grown : t.Grown) (shallow : t.Shallow) {node : Nat}
    (inside : node < t.size) : node < (t.span node).1 ∧ (t.span node).1 ≤ t.size ∧
      -2147483648 ≤ (t.span node).2 ∧ (t.span node).2 ≤ 0 ∧
      (t.isLeaf node = false → -2147483647 ≤ (t.span node).2) := by
  obtain ⟨tree, rfl⟩ := grown
  obtain ⟨path, sub, -, found, rfl⟩ := exists_path (size_ofRose tree ▸ inside)
  have some := sub.size_pos
  have fits := place_add_size_le found
  have behind := levelAt_stop_le found
  have lower := (levelAt_bounds shallow (tree.place path + sub.size)).1
  have own := shallow _ inside
  rw [depth_place found] at own
  rw [span_place found, size_ofRose, isLeaf_place found]
  refine ⟨by omega, fits, by omega, by omega, fun inner => ?_⟩
  obtain ⟨value, children⟩ := sub
  cases children with
  | nil => cases inner
  | cons first others =>
    have below : tree.at? (path ++ [0]) = .some first := by rw [at?_snoc found]; rfl
    have deeper := shallow (tree.place (path ++ [0])) (by
      rw [size_ofRose]
      exact place_lt_size below)
    rw [depth_place below, List.length_append, List.length_singleton] at deeper
    omega

theorem levelAt_nonneg {tree : Rose α} {n : Nat} (inside : n < tree.size) :
    0 ≤ tree.levelAt n := by
  obtain ⟨path, sub, -, found, rfl⟩ := exists_path inside
  rw [levelAt_place found]
  exact Int.natCast_nonneg _

/-- A subtree ends no later than one that it lies in, and their totals are not far apart: where
the inner one leads from the deepest level to the end, the outer one leads to the end as well. -/
theorem span_bounds_inside {t : Outline α} (grown : t.Grown) (shallow : t.Shallow)
    {target source : Nat} (inside : target < t.size) (inside' : source < t.size)
    (between : target < source ∧ source < (t.span target).1) :
    (t.span source).1 ≤ (t.span target).1 ∧ Fits ((t.span target).2 - (t.span source).2) := by
  obtain ⟨tree, rfl⟩ := grown
  obtain ⟨path, sub, -, found, rfl⟩ := exists_path (size_ofRose tree ▸ inside)
  obtain ⟨other, item, -, found', rfl⟩ := exists_path (size_ofRose tree ▸ inside')
  obtain ⟨rest, rfl⟩ := ((strictly_below_iff found found').mp between).1
  have below : sub.at? rest = some item := by
    rw [at?_append, found] at found'
    exact found'
  have ends : tree.place (path ++ rest) + item.size ≤ tree.place path + sub.size := by
    have := place_add_size_le below
    rw [place_append found]
    omega
  have within := place_add_size_le found
  have depth := shallow _ inside'
  rw [depth_place found', List.length_append] at depth
  have outer := levelAt_stop_le found
  have inner := levelAt_stop_le found'
  have lower := (levelAt_bounds shallow (tree.place path + sub.size)).1
  have lower' := (levelAt_bounds shallow (tree.place (path ++ rest) + item.size)).1
  rw [List.length_append] at inner
  rw [span_place found, span_place found', List.length_append]
  refine ⟨ends, ?_⟩
  unfold Fits
  -- The inner subtree ends at another node, or both subtrees lead to the end.
  rcases Nat.lt_or_ge (tree.place (path ++ rest) + item.size) tree.size with before | past
  · have := levelAt_nonneg before
    omega
  · have last : tree.place path + sub.size = tree.size := by omega
    rw [last, levelAt_size] at outer ⊢
    omega

theorem node_lt_stop {t : Outline α} (grown : t.Grown) {node : Nat} (inside : node < t.size)
    (inner : t.isLeaf node = false) : node + 1 < t.stop node := by
  obtain ⟨tree, rfl⟩ := grown
  obtain ⟨path, sub, -, found, rfl⟩ := exists_path (size_ofRose tree ▸ inside)
  rw [isLeaf_place found] at inner
  rw [stop_place found, size_eq sub]
  cases below : sub.children with
  | nil =>
    rw [below] at inner
    cases inner
  | cons first others =>
    have := first.size_pos
    rw [forestSize]
    omega

theorem shallow_subtree {t : Outline α} (grown : t.Grown) (shallow : t.Shallow) {node : Nat}
    (inside : node < t.size) : (t.subtree node).Shallow := by
  obtain ⟨tree, rfl⟩ := grown
  obtain ⟨path, sub, -, found, rfl⟩ := exists_path (size_ofRose tree ▸ inside)
  rw [subtree_place found]
  intro n below
  obtain ⟨rest, item, -, found', rfl⟩ := exists_path (size_ofRose sub ▸ below)
  have whole : tree.at? (path ++ rest) = some item := by
    rw [at?_append, found]
    exact found'
  have deeper := shallow (tree.place (path ++ rest)) (by
    rw [size_ofRose]
    exact place_lt_size whole)
  rw [depth_place whole, List.length_append] at deeper
  rw [depth_place found']
  omega

section Edits

variable {t : Outline α} (grown : t.Grown) (shallow : t.Shallow)
include grown shallow

namespace Bounded

theorem append_eq {parent : Nat} {value : α}
    (after : ∀ changed n, t.append parent value = .ok (changed, n) → changed.Narrow) :
    append t parent value = some (t.append parent value) := by
  have answered := shallow.answered grown
  rw [Outline.append] at after ⊢
  refine checked_eq fun inside => checked_eq fun room => ?_
  rw [inside, room] at after
  simp only [bind, Except.bind] at after
  split
  case isTrue leaf =>
    have narrow := after _ _ (if_pos leaf)
    have fits : Fits (t.weight parent - 1) := narrow ⟨_, value⟩ (mem_splice.mpr (.inr (by simp)))
    rw [fit_of_fits fits]
    rfl
  case isFalse inner =>
    obtain ⟨behind, within, -⟩ := span_bounds grown shallow (inside_of_checkNode inside)
    rcases whole : t.span parent with ⟨stop, total⟩
    rw [answered.span, whole]
    simp only [whole] at after behind within
    have narrow := after _ _ (if_neg inner)
    have fits : Fits (total - 1) := narrow ⟨_, value⟩ (mem_splice.mpr (.inr (by simp)))
    have amount : -(total - 1) = 1 - total := by omega
    have shifted := shift_eq_of_narrow (by rw [← size]; omega)
      fun entry member => narrow entry (mem_splice.mpr (.inl member))
    simp only [bind, Option.bind_some, fit_of_fits fits, amount, shifted, pure]

theorem graft_eq {parent : Nat} {scion : Outline α} (nonempty : 0 < scion.size)
    (after : ∀ changed n, t.graft parent scion = .ok (changed, n) → changed.Narrow) :
    graft t parent scion = some (t.graft parent scion) := by
  have answered := shallow.answered grown
  have last : scion.size - 1 < scion.entries.length := Nat.sub_one_lt_of_lt nonempty
  rw [Outline.graft] at after ⊢
  refine checked_eq fun inside => checked_eq fun room => ?_
  rw [inside, room] at after
  simp only [bind, Except.bind] at after
  split
  case isTrue leaf =>
    -- The weights that have been computed are among those of the result, and these fit.
    have narrow := after _ _ (if_pos leaf)
    have shifted := shift_eq_of_narrow last
      fun entry member => narrow entry (mem_splice.mpr (.inr member))
    rw [shifted]
    rfl
  case isFalse inner =>
    obtain ⟨behind, within, -, upper, lower⟩ :=
      span_bounds grown shallow (inside_of_checkNode inside)
    have lower := lower (Bool.eq_false_iff.mpr inner)
    rcases whole : t.span parent with ⟨stop, total⟩
    rw [answered.span, whole]
    simp only [whole] at after behind within upper lower
    have narrow := after _ _ (if_neg inner)
    have fits : Fits (total - 1) := by
      unfold Fits
      omega
    have amount : -(total - 1) = 1 - total := by omega
    have shifted := shift_eq_of_narrow (by rw [← size]; omega)
      fun entry member => narrow entry (mem_splice.mpr (.inl member))
    have shifted' := shift_eq_of_narrow last
      fun entry member => narrow entry (mem_splice.mpr (.inr member))
    simp only [bind, Option.bind_some, fit_of_fits fits, amount, shifted, shifted', pure]

theorem subtree_eq {node : Nat} (inside : node < t.size) (after : (t.subtree node).Narrow) :
    subtree t node = some (t.subtree node) := by
  have answered := shallow.answered grown
  obtain ⟨behind, within, lower, upper, -⟩ := span_bounds grown shallow inside
  rw [subtree, Outline.subtree, answered.span]
  rw [Outline.subtree] at after
  rcases whole : t.span node with ⟨stop, total⟩
  simp only [whole] at after behind within lower upper
  have fits : Fits (total + 1) := by
    unfold Fits
    omega
  have size : t.entries.length = t.size := rfl
  have last : ((t.entries.drop node).take (stop - node)).length - 1 <
      ((t.entries.drop node).take (stop - node)).length := by
    simp only [List.length_take, List.length_drop]
    omega
  have shifted := shift_eq_of_narrow last after
  simp only [bind, Option.bind_some, fit_of_fits fits, shifted, pure]

theorem clearChildren_eq (node : Nat) :
    clearChildren t node = some (t.clearChildren node) := by
  have answered := shallow.answered grown
  rw [Outline.clearChildren]
  refine checked_eq fun _ => ?_
  rw [answered.span]
  rfl

theorem remove_eq {node : Nat}
    (after : ∀ changed n, t.remove node = .ok (changed, n) → changed.Narrow) :
    remove t node = some (t.remove node) := by
  have answered := shallow.answered grown
  rw [Outline.remove] at after ⊢
  refine checked_eq fun inside => ?_
  obtain ⟨behind, within, -⟩ := span_bounds grown shallow (inside_of_checkNode inside)
  rw [inside] at after
  simp only [bind, Except.bind] at after
  split
  case isTrue => rfl
  case isFalse below =>
    rcases whole : t.span node with ⟨stop, total⟩
    rw [answered.span, whole]
    simp only [whole] at after behind within
    have size : t.entries.length = t.size := rfl
    have front : node - 1 < (cut t.entries node stop).length := by
      simp only [cut, List.length_append, List.length_take, List.length_drop]
      omega
    have shifted := shift_eq_of_narrow front (after _ _ (if_neg below))
    simp only [bind, Option.bind_some, shifted, pure]

theorem wrap_eq {node : Nat} {value : α}
    (after : ∀ changed n, t.wrap node value = .ok (changed, n) → changed.Narrow) :
    wrap t node value = some (t.wrap node value) := by
  have answered := shallow.answered grown
  rw [Outline.wrap] at after ⊢
  refine checked_eq fun inside => checked_eq fun room => ?_
  obtain ⟨behind, within, -⟩ := span_bounds grown shallow (inside_of_checkNode inside)
  rw [inside, room] at after
  have narrow := after _ _ rfl
  rw [answered.span]
  have last : t.stop node - 1 < t.entries.length := by
    rw [← size, Outline.stop]
    omega
  have shifted := shift_eq_of_narrow last
    fun entry member => narrow entry (mem_splice.mpr (.inl member))
  rw [Outline.stop] at shifted ⊢
  simp only [bind, Option.bind_some, shifted, pure]

theorem dissolve_eq {node : Nat}
    (after : ∀ changed n, t.dissolve node = .ok (changed, n) → changed.Narrow) :
    dissolve t node = some (t.dissolve node) := by
  have answered := shallow.answered grown
  rw [Outline.dissolve] at after ⊢
  refine checked_eq fun inside => ?_
  rw [inside] at after
  simp only [bind, Except.bind] at after
  split
  case isTrue => rfl
  case isFalse below =>
    rw [if_neg below] at after
    split
    case isTrue leaf =>
      rw [if_pos leaf] at after
      exact remove_eq grown shallow after
    case isFalse inner =>
      have narrow := after _ _ (if_neg inner)
      -- The last node of the subtree is not the one that goes.
      have here := inside_of_checkNode inside
      have deeper := node_lt_stop grown here (Bool.eq_false_iff.mpr inner)
      have last : t.stop node - 1 < t.entries.length := by
        have within := (span_bounds grown shallow here).2.1
        rw [← size, Outline.stop]
        omega
      have behind : node + 1 ≤ t.stop node - 1 := by omega
      have shifted := shift_eq
        (narrow _ (List.mem_append_right _ (weight_mem_shift last 1 behind)))
      rw [answered.span]
      rw [Outline.stop] at shifted ⊢
      simp only [bind, Option.bind_some, shifted, pure]

theorem prune_eq {target source : Nat}
    (after : ∀ changed n, t.prune target source = .ok (changed, n) → changed.Narrow) :
    prune t target source = some (t.prune target source) := by
  have answered := shallow.answered grown
  rw [Outline.prune] at after ⊢
  refine checked_eq fun passed => checked_eq fun passed' => ?_
  have inside := inside_of_checkNode passed
  have inside' := inside_of_checkNode passed'
  rw [passed, passed'] at after
  simp only [bind, Except.bind] at after
  rw [answered.span, answered.span]
  obtain ⟨-, within, -⟩ := span_bounds grown shallow inside
  obtain ⟨behind, -⟩ := span_bounds grown shallow inside'
  have nested := span_bounds_inside grown shallow inside inside'
  rcases whole : t.span target with ⟨targetStop, targetTotal⟩
  rcases part : t.span source with ⟨sourceStop, sourceTotal⟩
  simp only [whole, part] at after within behind nested
  simp only [bind, Option.bind_some, pure]
  split
  case isTrue between =>
    obtain ⟨ends, fits⟩ := nested between
    have last : target + (sourceStop - source) - 1 <
        (cut (cut t.entries sourceStop targetStop) target source).length := by
      rw [size] at within
      simp only [cut, List.length_append, List.length_take, List.length_drop]
      omega
    have shifted := shift_eq_of_narrow last (after _ _ (if_pos between))
    simp only [fit_of_fits fits, Option.bind_some, shifted]
  case isFalse => rfl

theorem graftCopy_eq {parent node : Nat} {source : Outline α} (grown' : source.Grown)
    (shallow' : source.Shallow)
    (after : ∀ changed n, t.graftCopy parent source node = .ok (changed, n) → changed.Narrow) :
    graftCopy t parent source node = some (t.graftCopy parent source node) := by
  rw [Outline.graftCopy] at after ⊢
  refine checked_eq fun passed => ?_
  have inside := inside_of_checkNode passed
  have copied := grown_subtree grown' inside
  have narrow := ((shallow_subtree grown' shallow' inside).answered copied).narrow
  rw [passed] at after
  rw [subtree_eq grown' shallow' inside narrow]
  exact graft_eq grown shallow copied.sound.2 after

end Bounded

end Edits

/-- What an edit copies from is shallow. -/
def CopiesShallow : Edit α → Prop
  | .graftCopy _ source _ => (ofRose source).Shallow
  | _ => True

namespace Bounded

def apply (t : Outline α) : Edit α → Option (Except OutlineError (Outline α × Option Nat))
  | .append parent value => (append t parent value).map (·.map fun (t, n) => (t, some n))
  | .prepend parent value => (prepend t parent value).map (·.map fun (t, n) => (t, some n))
  | .graft parent scion => (graft t parent (ofRose scion)).map (·.map fun (t, n) => (t, some n))
  | .graftCopy parent source n =>
    (graftCopy t parent (ofRose source) n).map (·.map fun (t, n) => (t, some n))
  | .clearChildren n => (clearChildren t n).map (·.map fun t => (t, none))
  | .remove n => (remove t n).map (·.map fun (t, n) => (t, some n))
  | .dissolve n => (dissolve t n).map (·.map fun (t, n) => (t, some n))
  | .prune target source => (prune t target source).map (·.map fun (t, n) => (t, some n))
  | .wrap n value => (wrap t n value).map (·.map fun (t, n) => (t, some n))

theorem apply_eq {t : Outline α} {edit : Edit α} (grown : t.Grown) (shallow : t.Shallow)
    (copies : CopiesShallow edit)
    (after : ∀ changed n, t.apply edit = .ok (changed, n) → changed.Narrow) :
    apply t edit = some (t.apply edit) := by
  -- An edit gives its node in a form of its own, which the outline does not depend on.
  have narrow {answer : Except OutlineError (Outline α × Nat)}
      (same : t.apply edit = answer.map fun (t, n) => (t, some n)) :
      ∀ changed n, answer = .ok (changed, n) → changed.Narrow := by
    rintro changed n rfl
    exact after changed (some n) same
  cases edit with
  | append parent value =>
    rw [apply, append_eq grown shallow (narrow rfl)]
    rfl
  | prepend parent value =>
    rw [apply, prepend_eq (narrow rfl)]
    rfl
  | graft parent scion =>
    have nonempty : 0 < (ofRose scion).size := (size_ofRose scion).symm ▸ scion.size_pos
    rw [apply, graft_eq grown shallow nonempty (narrow rfl)]
    rfl
  | graftCopy parent source n =>
    rw [apply, graftCopy_eq grown shallow ⟨source, rfl⟩ copies (narrow rfl)]
    rfl
  | clearChildren n =>
    rw [apply, clearChildren_eq grown shallow n]
    rfl
  | remove n =>
    rw [apply, remove_eq grown shallow (narrow rfl)]
    rfl
  | dissolve n =>
    rw [apply, dissolve_eq grown shallow (narrow rfl)]
    rfl
  | prune target source =>
    rw [apply, prune_eq grown shallow (narrow rfl)]
    rfl
  | wrap n value =>
    rw [apply, wrap_eq grown shallow (narrow rfl)]
    rfl

end Bounded

end StepScript.Outline
