import StepScript.Proofs.Value.Chains

/-! Properties that are set, and what is seen of them.

Setting a property changes the one with this key on this one object, in its place if it is there
and as a new last one otherwise. All other properties and all prototypes are left as they were.
What an object sees under a key is the first property that is met along its chain. So a property
that is set is seen by the objects whose way along their chains comes to it, and by no others.
-/

set_option autoImplicit false

namespace StepScript

variable {σ : Type}

section

variable {key : String} {value : Value} {props : List (String × Value)}

theorem insertProp_of_notMem (new : key ∉ props.map (·.1)) :
    insertProp key value props = props ++ [(key, value)] := by
  induction props with
  | nil => rfl
  | cons prop props ih =>
    rw [List.map_cons, List.mem_cons, not_or] at new
    have other : ¬(prop.1 == key) = true := by simpa using Ne.symm new.1
    rw [insertProp, if_neg other, ih new.2, List.cons_append]

theorem insertProp_inPlace {before after : List (String × Value)} {old : Value}
    (first : key ∉ before.map (·.1)) :
    insertProp key value (before ++ (key, old) :: after) = before ++ (key, value) :: after := by
  induction before with
  | nil => rw [List.nil_append, insertProp, if_pos (beq_self_eq_true key), List.nil_append]
  | cons prop before ih =>
    rw [List.map_cons, List.mem_cons, not_or] at first
    have other : ¬(prop.1 == key) = true := by simpa using Ne.symm first.1
    rw [List.cons_append, insertProp, if_neg other, ih first.2, List.cons_append]

theorem notMem_of_lookup (none : props.lookup key = none) : key ∉ props.map (·.1) := by
  intro member
  obtain ⟨prop, listed, rfl⟩ := List.mem_map.mp member
  simpa using List.lookup_eq_none_iff.mp none prop listed

theorem exists_of_lookup {old : Value} (found : props.lookup key = some old) :
    ∃ before after, props = before ++ (key, old) :: after ∧ key ∉ before.map (·.1) := by
  obtain ⟨before, after, split, others⟩ := List.lookup_eq_some_iff.mp found
  refine ⟨before, after, split, fun member => ?_⟩
  obtain ⟨prop, listed, rfl⟩ := List.mem_map.mp member
  simpa using others prop listed

variable (key value props)

theorem lookup_insertProp : (insertProp key value props).lookup key = some value := by
  induction props with
  | nil => simp [insertProp]
  | cons first rest ih =>
    obtain ⟨name, old⟩ := first
    rw [insertProp]
    split
    case isTrue same => simp [beq_iff_eq.mp same]
    case isFalse other =>
      rw [List.lookup_cons, beq_false_of_ne fun same => other (by simp [same]), ih]

theorem lookup_insertProp_of_ne {other : String} (ne : other ≠ key) :
    (insertProp key value props).lookup other = props.lookup other := by
  induction props with
  | nil => simp [insertProp, ne]
  | cons first rest ih =>
    obtain ⟨name, old⟩ := first
    rw [insertProp]
    split
    case isTrue same =>
      obtain rfl := beq_iff_eq.mp same
      rw [List.lookup_cons, List.lookup_cons, beq_false_of_ne ne]
    case isFalse => rw [List.lookup_cons, List.lookup_cons, ih]

end

namespace Store

/-! ## The store around a property -/

section

variable {s : Store σ} {id id' : Nat} {key key' : String} {value : Value}

theorem own?_insert (inside : id < s.objects.size) :
    (s.insert id key value).own? id key = some value := by
  rw [Store.insert, Store.own?, Array.getElem?_modify, if_pos rfl,
    Array.getElem?_eq_getElem inside]
  exact lookup_insertProp ..

theorem own?_insert_of_ne (other : ¬(id' = id ∧ key' = key)) :
    (s.insert id key value).own? id' key' = s.own? id' key' := by
  rw [Store.insert, Store.own?, Store.own?, Array.getElem?_modify]
  split
  case isTrue same =>
    have ne : key' ≠ key := fun equal => other ⟨same.symm, equal⟩
    cases s.objects[id']? with
    | none => rfl
    | some object => exact lookup_insertProp_of_ne key value object.props ne
  case isFalse => rfl

theorem proto_insert :
    (s.insert id key value).objects[id']?.map Object.proto = s.objects[id']?.map Object.proto := by
  rw [Store.insert, Array.getElem?_modify]
  split
  · cases s.objects[id']? <;> rfl
  · rfl

theorem proto?_insert : (s.insert id key value).proto? id' = s.proto? id' := by
  rw [Store.insert, Store.proto?, Store.proto?, Array.getElem?_modify]
  split
  · cases s.objects[id']? <;> rfl
  · rfl

theorem develops_insert : s.Develops (s.insert id key value) :=
  .of_proto? Array.size_modify fun _ => proto?_insert

theorem rooted_insert (rooted : s.Rooted) : (s.insert id key value).Rooted := by
  intro below up above
  rw [proto?_insert] at above
  exact Nat.lt_of_lt_of_eq (rooted below up above) Array.size_modify.symm

end

/-! ## What an object sees -/

/-- The loop that reads `key` from `id` on comes to this; it has no bound on its turns. -/
inductive Sees (s : Store σ) (key : String) : Nat → Option Value → Prop where
  | own {id : Nat} {value : Value} (own : s.own? id key = some value) : Sees s key id (some value)
  | nowhere {id : Nat} (other : s.own? id key = none) (alone : s.proto? id = none) :
    Sees s key id none
  | above {id up : Nat} {seen : Option Value} (other : s.own? id key = none)
    (above : s.proto? id = some up) (rest : Sees s key up seen) : Sees s key id seen

/-- The chain of `id` comes to `owner`, and no object before it has a property `key`. -/
inductive Reaches (s : Store σ) (key : String) (owner : Nat) : Nat → Prop where
  | here : Reaches s key owner owner
  | above {id up : Nat} (other : s.own? id key = none) (above : s.proto? id = some up)
    (rest : Reaches s key owner up) : Reaches s key owner id

section

variable {s : Store σ} {key : String} {id owner : Nat} {seen : Option Value}

theorem Sees.unique {seen' : Option Value} (sees : s.Sees key id seen)
    (sees' : s.Sees key id seen') : seen = seen' := by
  induction sees with
  | own own =>
    cases sees' with
    | own own' => rw [← own, own']
    | nowhere other | above other =>
      rw [own] at other
      cases other
  | nowhere other alone =>
    cases sees' with
    | own own =>
      rw [other] at own
      cases own
    | nowhere => rfl
    | above _ above =>
      rw [alone] at above
      cases above
  | above other above _ ih =>
    cases sees' with
    | own own =>
      rw [other] at own
      cases own
    | nowhere _ alone =>
      rw [above] at alone
      cases alone
    | above _ above' rest =>
      rw [above] at above'
      cases above'
      exact ih rest

theorem Reaches.sees (reaches : s.Reaches key owner id) (sees : s.Sees key owner seen) :
    s.Sees key id seen := by
  induction reaches with
  | here => exact sees
  | above other above _ ih => exact .above other above ih

theorem Search.sees {found : Option Nat} (search : s.Search key id found) :
    s.Sees key id (found.bind (s.own? · key)) ∧
      ∀ owner ∈ found, s.Reaches key owner id ∧ (s.own? owner key).isSome = true := by
  induction search with
  | here own =>
    obtain ⟨value, same⟩ := Option.isSome_iff_exists.mp own
    refine ⟨?_, fun _ member => ?_⟩
    · rw [Option.bind_some, same]
      exact .own same
    · cases member
      exact ⟨.here, own⟩
  | nowhere other alone =>
    have other := Option.isNone_iff_eq_none.mp (Option.isSome_eq_false_iff.mp other)
    exact ⟨.nowhere other alone, nofun⟩
  | further other above _ ih =>
    have other := Option.isNone_iff_eq_none.mp (Option.isSome_eq_false_iff.mp other)
    refine ⟨.above other above ih.1, fun owner member => ?_⟩
    obtain ⟨reaches, own⟩ := ih.2 owner member
    exact ⟨.above other above reaches, own⟩

theorem sees_lookup (rooted : s.Rooted) (inside : id < s.objects.size) (ends : s.Ends id)
    (key : String) : s.Sees key id (s.lookup id key) :=
  (search_owner? rooted inside ends key).sees.1

/-! ## What is seen of a property that is set -/

variable {value : Value}

/-- From an object whose way comes to the property, it is seen. -/
theorem Reaches.sees_insert (reaches : s.Reaches key owner id) (inside : owner < s.objects.size) :
    (s.insert owner key value).Sees key id (some value) := by
  induction reaches with
  | here => exact .own (own?_insert inside)
  | @above id up other above _ ih =>
    by_cases same : id = owner
    · subst same
      exact .own (own?_insert inside)
    · exact .above ((own?_insert_of_ne fun both => same both.1).trans other)
        (proto?_insert.trans above) ih

/-- From any other object, and under any other key, what is seen has not changed. -/
theorem Sees.insert {key' : String} (sees : s.Sees key' id seen)
    (apart : key' = key → ¬s.Reaches key owner id) :
    (s.insert owner key value).Sees key' id seen := by
  have kept (id : Nat) (apart : key' = key → ¬s.Reaches key owner id) :
      (s.insert owner key value).own? id key' = s.own? id key' :=
    own?_insert_of_ne fun ⟨here, same⟩ => apart same (here ▸ .here)
  -- Along the chain nothing but the one property can have changed.
  induction sees with
  | own own => exact .own ((kept _ apart).trans own)
  | nowhere other alone => exact .nowhere ((kept _ apart).trans other) (proto?_insert.trans alone)
  | above other above _ ih =>
    have further := ih fun same reaches => by
      subst same
      exact apart rfl (.above other above reaches)
    exact .above ((kept _ apart).trans other) (proto?_insert.trans above) further

end

end Store

end StepScript
