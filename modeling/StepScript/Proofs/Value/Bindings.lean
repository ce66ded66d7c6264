import StepScript.Machine.Expressions
import StepScript.Proofs.Value.Properties

/-! Assigning to a name.

A name belongs to the nearest scope that has a property of this name. Assigning to the name sets
this property where it is, and nothing else; a name that no scope has becomes the last property of
the scope that it is assigned in. Reading goes along the chain by a loop of its own, and it stops
at the same scope.
-/

set_option autoImplicit false

namespace StepScript

variable {σ : Type}

namespace Store

def replace (s : Store σ) (id : Nat) (object : Object) : Store σ :=
  { s with objects := s.objects.setIfInBounds id object }

theorem insert_eq_replace {s : Store σ} {id : Nat} {object : Object}
    (found : s.objects[id]? = some object) (key : String) (value : Value) :
    s.insert id key value =
      s.replace id { object with props := insertProp key value object.props } := by
  obtain ⟨bound, rfl⟩ := Array.getElem?_eq_some_iff.mp found
  have objects : s.objects.modify id (fun object =>
        { object with props := insertProp key value object.props }) =
      s.objects.setIfInBounds id
        { s.objects[id] with props := insertProp key value s.objects[id].props } := by
    apply Array.ext_getElem?
    intro place
    rw [Array.getElem?_modify, Array.getElem?_setIfInBounds]
    split
    case isTrue same => simp [← same, bound]
    case isFalse => rfl
  rw [insert, objects, replace]

end Store

/-- What assigning `value` to `name` in the scope `env` makes of the store, and the slot that it
writes to. -/
inductive Store.Assigns (s : Store σ) (env : Nat) (name : String) (value : Value) :
    Slot → Store σ → Prop where
  /-- The nearest scope with the name has it afterwards at the same place. -/
  | nearest {owner : Nat} {object : Object} {before after : List (String × Value)} {old : Value}
    (reaches : s.Reaches name owner env) (found : s.objects[owner]? = some object)
    (props : object.props = before ++ (name, old) :: after) (first : name ∉ before.map (·.1)) :
    Assigns s env name value ⟨owner, name⟩
      (s.replace owner { object with props := before ++ (name, value) :: after })
  /-- A name that no scope has comes last in `env`. -/
  | new {object : Object} (nowhere : s.Sees name env none) (found : s.objects[env]? = some object)
    (missing : name ∉ object.props.map (·.1)) :
    Assigns s env name value ⟨env, name⟩
      (s.replace env { object with props := object.props ++ [(name, value)] })

structure Store.Binds (s : Store σ) (env : Nat) (name : String) (value : Value) (slot : Slot)
    (after : Store σ) : Prop where
  assigns : s.Assigns env name value slot after
  /-- Other properties have not changed, and no prototype has. -/
  kept : ∀ id key, ¬(id = slot.object ∧ key = name) → after.own? id key = s.own? id key
  protos : ∀ id : Nat, after.objects[id]?.map Object.proto = s.objects[id]?.map Object.proto
  /-- Before, the slot holds what is seen from `env`. -/
  read : s.Sees name env (s.lookup env name) ∧ slot.read s = (s.lookup env name).getD .undefined
  /-- Afterwards the value is seen from `env`, and from each scope whose chain comes to the slot
  without another property of this name. -/
  reaches : s.Reaches name slot.object env
  seen : ∀ scope, s.Reaches name slot.object scope →
    after.Sees name scope (some value) ∧ after.lookup scope name = some value
  /-- All else that is seen from anywhere is as it was. -/
  others : ∀ scope key seen, (key = name → ¬s.Reaches name slot.object scope) →
    s.Sees key scope seen → after.Sees key scope seen

section

variable {s : Store σ} {env : Nat}

theorem Store.Reaches.lt {key : String} {owner id : Nat} (reaches : s.Reaches key owner id)
    (inside : owner < s.objects.size) : id < s.objects.size := by
  cases reaches with
  | here => exact inside
  | above _ above _ =>
    obtain ⟨object, found, -⟩ := Option.bind_eq_some_iff.mp above
    exact (Array.getElem?_eq_some_iff.mp found).1

/-- The slot of a name is in the nearest scope that has it, or else in the first one. -/
theorem assigns_write (rooted : s.Rooted) (ends : s.Ends env) (inside : env < s.objects.size)
    (name : String) (value : Value) :
    let slot := Slot.ofBinding s env name
    s.Assigns env name value slot (slot.write s value) ∧ s.Reaches name slot.object env ∧
      slot.object < s.objects.size := by
  intro slot
  obtain ⟨sees, owned⟩ := (Store.search_owner? rooted inside ends name).sees
  cases owns : s.owner? env name with
  | none =>
    have which : slot = ⟨env, name⟩ := by simp [slot, Slot.ofBinding, owns]
    rw [owns] at sees
    have missing : s.own? env name = none := by
      cases sees with
      | nowhere other _ | above other _ _ => exact other
    have found := Array.getElem?_eq_getElem inside
    rw [Store.own?, found] at missing
    have new := notMem_of_lookup missing
    rw [which, Slot.write, Store.insert_eq_replace found, insertProp_of_notMem new]
    exact ⟨.new sees found new, .here, inside⟩
  | some owner =>
    have which : slot = ⟨owner, name⟩ := by simp [slot, Slot.ofBinding, owns]
    obtain ⟨reaches, own⟩ := owned owner owns
    obtain ⟨old, own⟩ := Option.isSome_iff_exists.mp own
    obtain ⟨object, found, has⟩ := Option.bind_eq_some_iff.mp own
    obtain ⟨before, after, props, first⟩ := exists_of_lookup has
    rw [which, Slot.write, Store.insert_eq_replace found, props, insertProp_inPlace first]
    exact ⟨.nearest reaches found props first, reaches, (Array.getElem?_eq_some_iff.mp found).1⟩

/-- Assigning to a name writes to the scope that owns it, and to nothing else. -/
theorem binds_write (rooted : s.Rooted) (ends : ∀ id < s.objects.size, s.Ends id)
    (inside : env < s.objects.size) (name : String) (value : Value) :
    let slot := Slot.ofBinding s env name
    s.Binds env name value slot (slot.write s value) := by
  intro slot
  obtain ⟨assigns, reaches, bound⟩ := assigns_write rooted (ends env inside) inside name value
  have develops : s.Develops (slot.write s value) := Store.develops_insert
  have rooted' : (slot.write s value).Rooted := Store.rooted_insert rooted
  refine ⟨assigns, fun id key => Store.own?_insert_of_ne, fun id => Store.proto_insert, ?_, reaches,
    fun scope way => ?_, fun scope key seen apart sees => sees.insert apart⟩
  · have sees := Store.sees_lookup rooted inside (ends env inside) name
    have there := Store.sees_lookup rooted bound (ends _ bound) name
    exact ⟨sees, congrArg (·.getD .undefined) ((reaches.sees there).unique sees)⟩
  · have sees : (slot.write s value).Sees name scope (some value) := way.sees_insert bound
    have inside' : scope < (slot.write s value).objects.size :=
      Nat.lt_of_lt_of_le (way.lt bound) develops.grows
    have looked := Store.sees_lookup rooted' inside' (develops.ends rooted ends scope) name
    exact ⟨sees, looked.unique sees⟩

end

/-- The nearest scope with the name counts although it has nothing but `undefined` there, and the
one behind it keeps its own. -/
theorem binds_write_shadowing :
    let s : Store Unit := { Store.empty () with
      objects := #[⟨.null, [("u", .null), ("v", .null)]⟩,
        ⟨.object 0, [("a", .null), ("u", .undefined), ("b", .null)]⟩, ⟨.object 1, []⟩] }
    let slot := Slot.ofBinding s 2 "u"
    let after := slot.write s (.boolean true)
    s.Rooted ∧ (∀ id < s.objects.size, s.Ends id) ∧ 2 < s.objects.size ∧ slot = ⟨1, "u"⟩ ∧
      after.objects = #[⟨.null, [("u", .null), ("v", .null)]⟩,
        ⟨.object 0, [("a", .null), ("u", .boolean true), ("b", .null)]⟩, ⟨.object 1, []⟩] ∧
      s.Binds 2 "u" (.boolean true) slot after := by
  intro s slot after
  have rooted : s.Rooted := by
    rintro (_ | _ | _ | id) up above <;> cases above <;> decide
  have last : s.Chain 0 [0] := .last rfl
  have ends : ∀ id < s.objects.size, s.Ends id := by
    rintro (_ | _ | _ | id) inside
    · exact ⟨_, last⟩
    · exact ⟨_, .next rfl last⟩
    · exact ⟨_, .next rfl (.next rfl last)⟩
    · exact absurd inside (Nat.not_lt.mpr (Nat.le_add_left 3 id))
  have inside : 2 < s.objects.size := by decide
  exact ⟨rooted, ends, inside, rfl, rfl, binds_write rooted ends inside "u" (.boolean true)⟩

end StepScript
