import StepScript.Outline.Checked
import StepScript.Proofs.Outline.Editing

/-! A pool of outlines that are made from one another.

Outlines are named by their number in the pool and nodes by positions, which may be
stale or past the end. As long as no copy starts just past the last node of its
outline, every outline of the pool is that of a tree. Such a copy is not refused: it
gives an outline without nodes, and that outline spoils any other it is grafted into.
-/

set_option autoImplicit false

namespace StepScript.Outline

variable {α : Type}

/-- One use of a pool of outlines. -/
inductive Call (α : Type) where
  /-- Makes an outline of a lone root. -/
  | new (root : α)
  /-- Makes an outline of the subtree at a position. -/
  | copy (i node : Nat)
  /-- Replaces what a node holds. -/
  | set (i node : Nat) (value : α)
  /-- Edits an outline; trees that are put in are fresh. -/
  | edit (i : Nat) (request : Edit α)
  /-- Puts the whole outline `j` under a node of outline `i`. -/
  | graft (i parent j : Nat)
  /-- Puts a copy of the subtree at a position of outline `j` under a node of outline `i`. -/
  | graftCopy (i parent j node : Nat)

def change {β : Type} (pool : List (Outline α)) (i : Nat)
    (f : Outline α → Except OutlineError (Outline α × β)) :
    Option (Except OutlineError (List (Outline α))) := do
  let t ← pool[i]?
  return (f t).map fun (changed, _) => pool.set i changed

namespace Call

/-- What a call makes of the pool; `none` says that it asks for no outline of the pool, or for
a subtree or a node where the outline has no place for one. -/
def perform (pool : List (Outline α)) :
    Call α → Option (Except OutlineError (List (Outline α)))
  | new root => some (.ok (pool ++ [singleton root]))
  | copy i node => do
    let t ← pool[i]?
    let copied ← t.atPlace? node subtree
    return .ok (pool ++ [copied])
  | set i node value => do
    let t ← pool[i]?
    let changed ← t.set? node value
    return .ok (pool.set i changed)
  | edit i request => change pool i (·.apply request)
  | graft i parent j => do
    let scion ← pool[j]?
    change pool i (·.graft parent scion)
  | graftCopy i parent j node => do
    let source ← pool[j]?
    change pool i (·.graftCopy parent source node)

def step (pool : List (Outline α)) (call : Call α) : List (Outline α) :=
  match call.perform pool with
  | some (.ok changed) => changed
  | _ => pool

/-- Whether a copy starts just past the last node. -/
def copiesEnd (pool : List (Outline α)) : Call α → Bool
  | copy i node => pool[i]?.any fun t => node == t.size
  | _ => false

def sparing (pool : List (Outline α)) : List (Call α) → Bool
  | [] => true
  | call :: calls => !call.copiesEnd pool && sparing (call.step pool) calls

end Call

def Grown (t : Outline α) : Prop :=
  ∃ tree, t = ofRose tree

theorem Grown.sound {t : Outline α} (grown : t.Grown) : t.isWellFormed = true ∧ 1 ≤ t.size := by
  obtain ⟨tree, rfl⟩ := grown
  exact ⟨isWellFormed_ofRose tree, (size_ofRose tree).symm ▸ tree.size_pos⟩

open Rose

/-! ## Calls keep the pool grown -/

theorem grown_singleton (root : α) : (singleton root).Grown :=
  ⟨leaf root, rfl⟩

theorem grown_subtree {t : Outline α} {node : Nat} (grown : t.Grown) (inside : node < t.size) :
    (t.subtree node).Grown := by
  obtain ⟨tree, rfl⟩ := grown
  obtain ⟨path, sub, -, found, rfl⟩ := exists_path (size_ofRose tree ▸ inside)
  exact ⟨sub, subtree_place found⟩

theorem grown_apply {t changed : Outline α} {edit : Edit α} {n : Option Nat} (grown : t.Grown)
    (applied : t.apply edit = .ok (changed, n)) : changed.Grown := by
  obtain ⟨tree, rfl⟩ := grown
  rw [apply_ofRose] at applied
  cases edited : tree.apply edit with
  | error e =>
    rw [edited] at applied
    cases applied
  | ok answer =>
    rw [edited] at applied
    cases applied
    exact ⟨answer.1, rfl⟩

theorem grown_graft {t scion changed : Outline α} {parent n : Nat} (grown : t.Grown)
    (grown' : scion.Grown) (grafted : t.graft parent scion = .ok (changed, n)) :
    changed.Grown := by
  obtain ⟨tree, rfl⟩ := grown'
  have applied : t.apply (.graft parent tree) = .ok (changed, some n) := by
    rw [apply, grafted]
    rfl
  exact grown_apply grown applied

theorem grown_graftCopy {t source changed : Outline α} {parent node n : Nat} (grown : t.Grown)
    (grown' : source.Grown) (grafted : t.graftCopy parent source node = .ok (changed, n)) :
    changed.Grown := by
  obtain ⟨tree, rfl⟩ := grown'
  have applied : t.apply (.graftCopy parent tree node) = .ok (changed, some n) := by
    rw [apply, grafted]
    rfl
  exact grown_apply grown applied

theorem grown_set? {t changed : Outline α} {node : Nat} {value : α} (grown : t.Grown)
    (replaced : t.set? node value = some changed) : changed.Grown := by
  obtain ⟨tree, rfl⟩ := grown
  unfold set? at replaced
  split at replaced
  case isFalse => cases replaced
  case isTrue inside =>
    cases replaced
    rw [size_ofRose] at inside
    obtain ⟨path, sub, -, found, rfl⟩ := exists_path inside
    obtain ⟨front, rest, total, position, -, entries, whole⟩ := entries_modifyAt found
    refine ⟨tree.modifyAt (fun sub => .node value sub.children) path, ?_⟩
    obtain ⟨old, children⟩ := sub
    rw [whole, entries, ← position, ← Nat.add_zero front.length, modify_append_right]
    simp [entriesBefore, Rose.children]

section

variable {pool changed : List (Outline α)}

theorem grown_append (grown : ∀ t ∈ pool, t.Grown) {new : Outline α} (more : new.Grown) :
    ∀ t ∈ pool ++ [new], t.Grown :=
  List.forall_mem_append.mpr ⟨grown, List.forall_mem_singleton.mpr more⟩

theorem grown_set (grown : ∀ t ∈ pool, t.Grown) (i : Nat) {new : Outline α} (more : new.Grown) :
    ∀ t ∈ pool.set i new, t.Grown := by
  intro t member
  rcases List.mem_or_eq_of_mem_set member with old | rfl
  · exact grown t old
  · exact more

theorem grown_change {β : Type} {i : Nat} {f : Outline α → Except OutlineError (Outline α × β)}
    (grown : ∀ t ∈ pool, t.Grown)
    (keeps : ∀ t t' result, t.Grown → f t = .ok (t', result) → t'.Grown)
    (done : change pool i f = some (.ok changed)) : ∀ t ∈ changed, t.Grown := by
  obtain ⟨t, selected, done⟩ := Option.bind_eq_some_iff.mp done
  have member := List.mem_of_getElem? selected
  cases answer : f t with
  | error e =>
    rw [answer] at done
    cases done
  | ok answered =>
    rw [answer] at done
    cases done
    obtain ⟨changed, result⟩ := answered
    exact grown_set grown i (keeps t changed result (grown t member) answer)

theorem grown_perform {call : Call α} (grown : ∀ t ∈ pool, t.Grown)
    (spared : call.copiesEnd pool = false) (done : call.perform pool = some (.ok changed)) :
    ∀ t ∈ changed, t.Grown := by
  cases call with
  | new root =>
    cases done
    exact grown_append grown (grown_singleton root)
  | copy i node =>
    obtain ⟨t, selected, done⟩ := Option.bind_eq_some_iff.mp done
    obtain ⟨copied, found, done⟩ := Option.bind_eq_some_iff.mp done
    cases done
    unfold atPlace? at found
    split at found
    case isFalse => cases found
    case isTrue inside =>
      cases found
      -- A place may be just past the last node, which is the one that is spared.
      have short : node ≠ t.size := by simpa [Call.copiesEnd, selected] using spared
      have member := List.mem_of_getElem? selected
      exact grown_append grown (grown_subtree (grown t member) (by omega))
  | set i node value =>
    obtain ⟨t, selected, done⟩ := Option.bind_eq_some_iff.mp done
    obtain ⟨replaced, found, done⟩ := Option.bind_eq_some_iff.mp done
    cases done
    have grownThere := grown t (List.mem_of_getElem? selected)
    exact grown_set grown i (grown_set? grownThere found)
  | edit i request => exact grown_change grown (fun _ _ _ => grown_apply) done
  | graft i parent j =>
    obtain ⟨scion, selected, done⟩ := Option.bind_eq_some_iff.mp done
    have grown' := grown scion (List.mem_of_getElem? selected)
    exact grown_change grown (fun _ _ _ grown => grown_graft grown grown') done
  | graftCopy i parent j node =>
    obtain ⟨source, selected, done⟩ := Option.bind_eq_some_iff.mp done
    have grown' := grown source (List.mem_of_getElem? selected)
    exact grown_change grown (fun _ _ _ grown => grown_graftCopy grown grown') done

theorem grown_step {call : Call α} (grown : ∀ t ∈ pool, t.Grown)
    (spared : call.copiesEnd pool = false) : ∀ t ∈ call.step pool, t.Grown := by
  unfold Call.step
  split
  case h_1 done => exact grown_perform grown spared done
  case h_2 => exact grown

theorem grown_foldl {calls : List (Call α)} (grown : ∀ t ∈ pool, t.Grown)
    (spared : Call.sparing pool calls = true) :
    ∀ t ∈ calls.foldl (fun pool call => call.step pool) pool, t.Grown := by
  induction calls generalizing pool with
  | nil => exact grown
  | cons call calls ih =>
    rw [Call.sparing, Bool.and_eq_true, Bool.not_eq_true'] at spared
    exact ih (grown_step grown spared.1) spared.2

end

/-! ## An outline without nodes -/

/-- Just past the last node there is nothing to copy. -/
theorem subtree_size (t : Outline α) : t.subtree t.size = ⟨[]⟩ := by
  obtain ⟨entries⟩ := t
  simp [subtree, span, extent, size, shift]

theorem perform_copy_size {pool : List (Outline α)} {i : Nat} {t : Outline α}
    (selected : pool[i]? = some t) :
    (Call.copy i t.size).perform pool = some (.ok (pool ++ [⟨[]⟩])) := by
  rw [Call.perform, selected]
  simp [atPlace?, subtree_size]

theorem totalWeight_of_finishes {entries : List (Entry α)} {depth : Int}
    (finished : finishes entries depth = true) : totalWeight entries = -1 - depth := by
  induction entries generalizing depth with
  | nil =>
    rw [finishes, beq_iff_eq] at finished
    simp [finished, totalWeight]
  | cons entry rest ih =>
    simp only [finishes, Bool.and_eq_true] at finished
    have more := ih finished.2
    rw [totalWeight] at more ⊢
    rw [List.foldr_cons, more]
    omega

theorem totalWeight_of_isWellFormed {t : Outline α} (sound : t.isWellFormed = true) :
    totalWeight t.entries = -1 := by
  obtain ⟨entries⟩ := t
  cases entries with
  | nil => cases sound
  | cons root rest =>
    rw [isWellFormed, Bool.and_eq_true] at sound
    have more := totalWeight_of_finishes sound.2
    rw [totalWeight] at more ⊢
    rw [List.foldr_cons, more]
    omega

theorem totalWeight_shift {entries : List (Entry α)} {k : Nat} (inside : k < entries.length)
    (amount : Int) : totalWeight (shift entries k amount) = totalWeight entries + amount := by
  induction entries generalizing k with
  | nil => simp at inside
  | cons entry rest ih =>
    cases k with
    | zero =>
      simp only [shift, List.modify_zero_cons, totalWeight, List.foldr_cons]
      omega
    | succ k =>
      have more := ih (Nat.lt_of_succ_lt_succ inside)
      simp only [shift, totalWeight] at more
      simp only [shift, List.modify_succ_cons, totalWeight, List.foldr_cons, more]
      omega

/-- Grafting an outline without nodes is accepted, but a weight then leads to a child that is
not there. -/
theorem graft_nothing {t : Outline α} (grown : t.Grown) {parent : Nat} (inside : parent < t.size)
    (room : t.size ≤ capacity) :
    ∃ changed n, t.graft parent ⟨[]⟩ = .ok (changed, n) ∧ changed.isWellFormed = false := by
  obtain ⟨tree, rfl⟩ := grown
  obtain ⟨path, sub, -, found, rfl⟩ := exists_path (size_ofRose tree ▸ inside)
  refine ⟨_, _, graft_eq _ _ _ inside (by simpa [size] using room), ?_⟩
  have whole := totalWeight_of_isWellFormed (isWellFormed_ofRose tree)
  have above := levelAt_stop_le found
  have fits := place_add_size_le found
  have some := sub.size_pos
  have last : tree.place path + sub.size - 1 < (ofRose tree).entries.length := by
    have size : (ofRose tree).entries.length = tree.size := size_ofRose tree
    omega
  have nothing (total : Int) :
      shift ([] : List (Entry α)) (size (⟨[]⟩ : Outline α) - 1) total = [] :=
    rfl
  rw [span_place found]
  simp only [nothing, splice, List.append_nil, List.take_append_drop]
  -- Only the weight of the last node has changed, so the total is no longer that of a tree.
  rw [Bool.eq_false_iff]
  intro sound
  have total := totalWeight_of_isWellFormed sound
  rw [totalWeight_shift last, whole] at total
  omega

end StepScript.Outline
