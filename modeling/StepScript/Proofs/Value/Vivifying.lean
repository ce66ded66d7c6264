import StepScript.Proofs.Value.Bindings

/-! Reading that makes what is missing.

Such a read gives what any other read of the property gives. Where no object along the chain has
the property, it comes last on the object that is read from, with `undefined`. Objects that inherit
from this one then see a property that they did not see before, but reading gives `undefined` for
a missing property too, and nothing that is `undefined` can be called.
-/

set_option autoImplicit false

namespace StepScript

variable {σ : Type}

/-- What reading `key` from `id` gives where a missing property is made, and the store after it. -/
inductive Store.Vivifies (s : Store σ) (id : Nat) (key : String) : Value → Store σ → Prop where
  /-- A property that is seen along the chain leaves the store alone. -/
  | seen {value : Value} (sees : s.Sees key id (some value)) : Vivifies s id key value s
  /-- One that is missing comes last on the object itself. -/
  | made {object : Object} (nowhere : s.Sees key id none) (found : s.objects[id]? = some object)
    (missing : key ∉ object.props.map (·.1)) :
    Vivifies s id key .undefined
      (s.replace id { object with props := object.props ++ [(key, .undefined)] })

/-- No question about a value tells the two stores apart. -/
structure Store.Indistinct (s after : Store σ) : Prop where
  get : ∀ value key, after.get value key = s.get value key
  callee : ∀ value, after.callee value = s.callee value
  hook : ∀ value key, after.hook? value key = s.hook? value key
  scriptHook : ∀ value key, after.scriptHook? value key = s.scriptHook? value key
  /-- Functions are what they were. -/
  closures : after.closures = s.closures
  natives : after.natives = s.natives

/-- A missing property and one that is `undefined` pass for the same. -/
inductive SeenAlike : Option Value → Option Value → Prop where
  | same (seen : Option Value) : SeenAlike seen seen
  | made : SeenAlike none (some .undefined)

namespace Store

section

variable {s : Store σ} {id scope : Nat} {key name : String} {seen : Option Value}

/-- From anywhere, under any key, what is seen stays or is `undefined` where nothing was seen. -/
theorem Sees.seenAlike_insert (sees : s.Sees name scope seen) (nowhere : s.Sees key id none)
    (inside : id < s.objects.size) :
    ∃ seen', (s.insert id key .undefined).Sees name scope seen' ∧ SeenAlike seen seen' := by
  by_cases reaches : name = key ∧ s.Reaches key id scope
  · -- The way from here comes to the object that lacks the property, so nothing was seen.
    obtain ⟨rfl, way⟩ := reaches
    cases sees.unique (way.sees nowhere)
    exact ⟨_, way.sees_insert inside, .made⟩
  · have apart : name = key → ¬s.Reaches key id scope := fun same way => reaches ⟨same, way⟩
    exact ⟨seen, sees.insert apart, .same seen⟩

theorem lookup_of_size_le (beyond : s.objects.size ≤ id) : s.lookup id key = none := by
  have absent : s.objects[id]? = none := Array.getElem?_eq_none beyond
  have alone : s.proto? id = none := by rw [proto?, absent, Option.bind_none]
  have other : s.own? id key = none := by rw [own?, absent, Option.bind_none]
  rw [lookup, owner?]
  cases s.objects.size with
  | zero => rfl
  | succ limit =>
    rw [ownerWithin, alone, other]
    rfl

theorem seenAlike_lookup (rooted : s.Rooted) (ends : ∀ id < s.objects.size, s.Ends id)
    (inside : id < s.objects.size) (nowhere : s.Sees key id none) (scope : Nat) (name : String) :
    SeenAlike (s.lookup scope name) ((s.insert id key .undefined).lookup scope name) := by
  have develops : s.Develops (s.insert id key .undefined) := develops_insert
  rcases Nat.lt_or_ge scope s.objects.size with there | beyond
  · have sees := sees_lookup rooted there (ends scope there) name
    have there' := Nat.lt_of_lt_of_le there develops.grows
    have sees' := sees_lookup (rooted_insert rooted) there' (develops.ends rooted ends scope) name
    obtain ⟨seen', also, alike⟩ := sees.seenAlike_insert nowhere inside
    rwa [sees'.unique also]
  · have size : (s.insert id key .undefined).objects.size = s.objects.size := Array.size_modify
    rw [lookup_of_size_le beyond, lookup_of_size_le (size ▸ beyond)]
    exact .same none

end

section

variable {s after : Store σ}
  (alike : ∀ id key, SeenAlike (s.lookup id key) (after.lookup id key))
include alike

theorem get_eq_of_seenAlike (value : Value) (key : String) :
    after.get value key = s.get value key := by
  cases value with
  | object id =>
    have seen := alike id key
    simp only [get, objectOf, Except.map]
    generalize s.lookup id key = before at seen ⊢
    generalize after.lookup id key = behind at seen ⊢
    cases seen with
    | same | made => rfl
  | _ => rfl

theorem callee_eq_of_seenAlike (value : Value) : after.callee value = s.callee value := by
  cases value with
  | object id =>
    have seen := alike id callHook
    simp only [callee]
    generalize s.lookup id callHook = before at seen ⊢
    generalize after.lookup id callHook = behind at seen ⊢
    cases seen with
    | same | made => rfl
  | _ => rfl

theorem hook_eq_of_seenAlike (value : Value) (key : String) :
    after.hook? value key = s.hook? value key := by
  cases value with
  | object id =>
    have seen := alike id key
    simp only [hook?, callee_eq_of_seenAlike alike]
    generalize s.lookup id key = before at seen ⊢
    generalize after.lookup id key = behind at seen ⊢
    cases seen with
    | same | made => rfl
  | _ => rfl

end

theorem Indistinct.refl (s : Store σ) : s.Indistinct s where
  get := fun _ _ => rfl
  callee := fun _ => rfl
  hook := fun _ _ => rfl
  scriptHook := fun _ _ => rfl
  closures := rfl
  natives := rfl

theorem indistinct_insert {s : Store σ} {id : Nat} {key : String} (rooted : s.Rooted)
    (ends : ∀ id < s.objects.size, s.Ends id) (inside : id < s.objects.size)
    (nowhere : s.Sees key id none) : s.Indistinct (s.insert id key .undefined) := by
  have alike := seenAlike_lookup rooted ends inside nowhere
  have hook := hook_eq_of_seenAlike alike
  constructor
  case get => exact get_eq_of_seenAlike alike
  case callee => exact callee_eq_of_seenAlike alike
  case hook => exact hook
  case scriptHook =>
    intro value name
    rw [scriptHook?, hook, scriptHook?]
  case closures => rfl
  case natives => rfl

/-- Reading a property, and making it where it is missing, gives what reading it gives. It changes
at most the object that is read from, and no later question about any value shows that it did. -/
theorem exists_vivified {s : Store σ} {id : Nat} (rooted : s.Rooted)
    (ends : ∀ id < s.objects.size, s.Ends id) (inside : id < s.objects.size) (key : String) :
    ∃ value after, s.index (.object id) key = .ok (value, after) ∧
      s.get (.object id) key = .ok value ∧ s.Vivifies id key value after ∧
        s.Indistinct after := by
  have sees := sees_lookup rooted inside (ends id inside) key
  have read : s.get (.object id) key = .ok ((s.lookup id key).getD .undefined) := rfl
  cases looked : s.lookup id key with
  | some value =>
    rw [looked] at sees read
    have index : s.index (.object id) key = .ok (value, s) := by
      simp [Store.index, objectOf, Except.map, looked]
    exact ⟨value, s, index, read, .seen sees, .refl s⟩
  | none =>
    rw [looked] at sees read
    have index : s.index (.object id) key = .ok (.undefined, s.insert id key .undefined) := by
      simp [Store.index, objectOf, Except.map, looked]
    refine ⟨.undefined, _, index, read, ?_, indistinct_insert rooted ends inside sees⟩
    have missing : s.own? id key = none := by
      cases sees with
      | nowhere other _ | above other _ _ => exact other
    have found := Array.getElem?_eq_getElem inside
    rw [own?, found] at missing
    have new := notMem_of_lookup missing
    rw [insert_eq_replace found, insertProp_of_notMem new]
    exact .made sees found new

/-- Looking for a way to call an object leaves one on it that is no function. An object that
inherits from it cannot be called either, neither before nor after. -/
theorem exists_vivified_inherited :
    let s : Store Unit := { Store.empty () with
      objects := #[⟨.null, [("a", .null)]⟩, ⟨.object 0, [("b", .null)]⟩, ⟨.object 1, []⟩] }
    s.Rooted ∧ (∀ id < s.objects.size, s.Ends id) ∧ 1 < s.objects.size ∧
      ∃ after, s.index (.object 1) callHook = .ok (.undefined, after) ∧
        after.objects = #[⟨.null, [("a", .null)]⟩,
          ⟨.object 0, [("b", .null), (callHook, .undefined)]⟩, ⟨.object 1, []⟩] ∧
        s.get (.object 1) callHook = .ok .undefined ∧
        s.Vivifies 1 callHook .undefined after ∧ s.Indistinct after := by
  intro s
  have rooted : s.Rooted := by
    rintro (_ | _ | _ | id) up above <;> cases above <;> decide
  have last : s.Chain 0 [0] := .last rfl
  have ends : ∀ id < s.objects.size, s.Ends id := by
    rintro (_ | _ | _ | id) inside
    · exact ⟨_, last⟩
    · exact ⟨_, .next rfl last⟩
    · exact ⟨_, .next rfl (.next rfl last)⟩
    · exact absurd inside (Nat.not_lt.mpr (Nat.le_add_left 3 id))
  have inside : 1 < s.objects.size := by decide
  obtain ⟨value, after, index, read, vivifies, indistinct⟩ :=
    exists_vivified rooted ends inside callHook
  have made : s.index (.object 1) callHook = .ok (.undefined, s.insert 1 callHook .undefined) := rfl
  cases made.symm.trans index
  exact ⟨rooted, ends, inside, _, made, rfl, read, vivifies, indistinct⟩

end Store

end StepScript
