import Mathlib.Data.List.Perm.Subperm
import StepScript.Value.Store

/-! Prototype chains.

A search for a property goes from an object to its prototype without any bound of
its own, and it ends because chains do. A chain that ends meets no object twice, so
as many steps as there are objects are enough for it. A store can develop: objects
keep their prototypes, and a new one gets an older one as its prototype. Then chains
that ended still do, and those of the new objects end in them.
-/

set_option autoImplicit false

namespace StepScript.Store

variable {σ : Type}

inductive Chain (s : Store σ) : Nat → List Nat → Prop where
  | last {id : Nat} (alone : s.proto? id = none) : Chain s id [id]
  | next {id up : Nat} {ids : List Nat} (above : s.proto? id = some up) (rest : Chain s up ids) :
    Chain s id (id :: ids)

def Ends (s : Store σ) (id : Nat) : Prop :=
  ∃ ids, s.Chain id ids

/-- The search for `key` from `id` on as the loop that it is: with no bound on its turns. -/
inductive Search (s : Store σ) (key : String) : Nat → Option Nat → Prop where
  | here {id : Nat} (own : (s.own? id key).isSome = true) : Search s key id (some id)
  | nowhere {id : Nat} (other : (s.own? id key).isSome = false) (alone : s.proto? id = none) :
    Search s key id none
  | further {id up : Nat} {found : Option Nat} (other : (s.own? id key).isSome = false)
    (above : s.proto? id = some up) (rest : Search s key up found) : Search s key id found

def Rooted (s : Store σ) : Prop :=
  ∀ id up, s.proto? id = some up → up < s.objects.size

/-! ## Chains that end -/

namespace Chain

variable {s : Store σ} {id : Nat} {ids : List Nat}

theorem unique {ids' : List Nat} (chain : s.Chain id ids) (chain' : s.Chain id ids') :
    ids = ids' := by
  induction chain generalizing ids' with
  | last alone =>
    cases chain' with
    | last => rfl
    | next above =>
      rw [alone] at above
      cases above
  | next above _ ih =>
    cases chain' with
    | last alone =>
      rw [alone] at above
      cases above
    | next above' rest' =>
      rw [above] at above'
      cases above'
      rw [ih rest']

theorem of_mem {met : Nat} (chain : s.Chain id ids) (member : met ∈ ids) :
    ∃ rest, s.Chain met rest ∧ rest.length ≤ ids.length := by
  induction chain with
  | last alone =>
    obtain rfl := List.mem_singleton.mp member
    exact ⟨_, .last alone, Nat.le_refl _⟩
  | next above rest ih =>
    rcases List.mem_cons.mp member with rfl | later
    · exact ⟨_, .next above rest, Nat.le_refl _⟩
    · obtain ⟨others, shorter, bound⟩ := ih later
      exact ⟨others, shorter, Nat.le_succ_of_le bound⟩

theorem nodup (chain : s.Chain id ids) : ids.Nodup := by
  induction chain with
  | last alone => exact List.nodup_cons.mpr ⟨List.not_mem_nil, List.nodup_nil⟩
  | @next id up ids above rest ih =>
    refine List.nodup_cons.mpr ⟨fun again => ?_, ih⟩
    -- From its second meeting on the chain would be longer than itself.
    obtain ⟨others, chain, bound⟩ := rest.of_mem again
    have same := chain.unique (.next above rest)
    rw [same, List.length_cons] at bound
    exact Nat.not_succ_le_self _ bound

theorem inside (chain : s.Chain id ids) (rooted : s.Rooted) (first : id < s.objects.size) :
    ∀ met ∈ ids, met < s.objects.size := by
  induction chain with
  | last => exact List.forall_mem_singleton.mpr first
  | next above _ ih => exact List.forall_mem_cons.mpr ⟨first, ih (rooted _ _ above)⟩

theorem length_le (chain : s.Chain id ids) (rooted : s.Rooted) (first : id < s.objects.size) :
    ids.length ≤ s.objects.size := by
  have within : ids ⊆ List.range s.objects.size :=
    fun met member => List.mem_range.mpr (chain.inside rooted first met member)
  simpa using (List.subperm_of_subset chain.nodup within).length_le

/-- A bound that reaches the end of the chain does not cut the search. -/
theorem search {limit : Nat} (key : String) (chain : s.Chain id ids)
    (enough : ids.length ≤ limit) : s.Search key id (s.ownerWithin key limit id) := by
  -- By induction on the chain, which the search goes up object by object.
  induction chain generalizing limit with
  | @last id alone =>
    obtain _ | limit := limit
    · cases enough
    rw [ownerWithin]
    split
    case isTrue own => exact .here own
    case isFalse other =>
      rw [alone]
      exact .nowhere (Bool.eq_false_iff.mpr other) alone
  | @next id up ids above rest ih =>
    obtain _ | limit := limit
    · cases enough
    rw [ownerWithin]
    split
    case isTrue own => exact .here own
    case isFalse other =>
      rw [above]
      exact .further (Bool.eq_false_iff.mpr other) above (ih (Nat.le_of_succ_le_succ enough))

end Chain

/-- Where the chain of an object ends, so does every search on it, with the owner. -/
theorem search_owner? {s : Store σ} {id : Nat} (rooted : s.Rooted) (first : id < s.objects.size)
    (ends : s.Ends id) (key : String) : s.Search key id (s.owner? id key) := by
  obtain ⟨ids, chain⟩ := ends
  exact chain.search key (chain.length_le rooted first)

def Searchable (s : Store σ) : Prop :=
  ∀ id < s.objects.size, s.Ends id ∧ ∀ key, s.Search key id (s.owner? id key)

/-! ## Stores that develop -/

/-- Objects keep their prototypes, and the prototypes of new ones have been there before. -/
structure Develops (s s' : Store σ) : Prop where
  grows : s.objects.size ≤ s'.objects.size
  keeps : ∀ id < s.objects.size, s'.proto? id = s.proto? id
  fresh : ∀ id up, s.objects.size ≤ id → s'.proto? id = some up → up < id

namespace Develops

variable {s s' s'' : Store σ}

theorem refl (s : Store σ) : s.Develops s where
  grows := Nat.le_refl _
  keeps := fun _ _ => rfl
  fresh := by
    intro id up beyond above
    simp [proto?, Array.getElem?_eq_none beyond] at above

theorem trans (first : s.Develops s') (second : s'.Develops s'') : s.Develops s'' where
  grows := Nat.le_trans first.grows second.grows
  keeps := by
    intro id inside
    rw [second.keeps id (Nat.lt_of_lt_of_le inside first.grows), first.keeps id inside]
  fresh := by
    intro id up beyond above
    rcases Nat.lt_or_ge id s'.objects.size with old | new
    · rw [second.keeps id old] at above
      exact first.fresh id up beyond above
    · exact second.fresh id up new above

theorem of_proto? (size : s'.objects.size = s.objects.size)
    (same : ∀ id, s'.proto? id = s.proto? id) : s.Develops s' where
  grows := Nat.le_of_eq size.symm
  keeps := fun id _ => same id
  fresh := by
    intro id up beyond above
    rw [same id] at above
    simp [proto?, Array.getElem?_eq_none beyond] at above

theorem chain (develops : s.Develops s') (rooted : s.Rooted) {id : Nat} {ids : List Nat}
    (chain : s.Chain id ids) (first : id < s.objects.size) : s'.Chain id ids := by
  induction chain with
  | last alone => exact .last ((develops.keeps _ first).trans alone)
  | next above _ ih =>
    exact .next ((develops.keeps _ first).trans above) (ih (rooted _ _ above))

theorem ends (develops : s.Develops s') (rooted : s.Rooted)
    (all : ∀ id < s.objects.size, s.Ends id) (id : Nat) : s'.Ends id := by
  induction id using Nat.strongRecOn with
  | ind id ih =>
    rcases Nat.lt_or_ge id s.objects.size with old | new
    · obtain ⟨ids, chain⟩ := all id old
      exact ⟨ids, develops.chain rooted chain old⟩
    · -- A new object goes on to one with a smaller number.
      cases above : s'.proto? id with
      | none => exact ⟨_, .last above⟩
      | some up =>
        obtain ⟨ids, chain⟩ := ih up (develops.fresh id up new above)
        exact ⟨_, .next above chain⟩

theorem searchable (develops : s.Develops s') (rooted : s.Rooted) (rooted' : s'.Rooted)
    (all : ∀ id < s.objects.size, s.Ends id) : s'.Searchable :=
  fun id inside =>
    have ends := develops.ends rooted all id
    ⟨ends, search_owner? rooted' inside ends⟩

end Develops

end StepScript.Store
