import StepScript.Outline.Edit
import StepScript.Proofs.Value.Computations
import StepScript.Proofs.Value.Properties

/-! References lead to objects.

`Store.Closed` says that no reference leads nowhere: prototypes, properties, the scopes
of closures and what the host holds on to are objects of the store, and no literal of
a body is an object. `Follows base n s` goes with a computation: the store has developed
from `base`, it is closed and it has `n` objects.
-/

set_option autoImplicit false

namespace StepScript

variable {σ α β : Type}

def Node.Plain : Node → Prop
  | .literal value => value.Within 0
  | _ => True

theorem within_head {n : Nat} {args : List Value} (given : ∀ arg ∈ args, arg.Within n) :
    (args.head?.getD .undefined).Within n := by
  cases args with
  | nil => trivial
  | cons arg rest => exact given arg List.mem_cons_self

namespace Outline

def Plain (code : Code) : Prop :=
  ∀ entry ∈ code.entries, entry.value.Plain

theorem Plain.literal {code : Code} (plain : code.Plain) {n : Nat} {value : Value}
    (found : code.get? n = some (.literal value)) : value.Within 0 := by
  obtain ⟨entry, at_, same⟩ := Option.map_eq_some_iff.mp found
  have held := plain entry (List.mem_of_getElem? at_)
  rwa [same] at held

theorem value_of_mem_shift {entries : List (Entry Node)} {k : Nat} {amount : Int}
    {entry : Entry Node} (member : entry ∈ shift entries k amount) :
    ∃ old ∈ entries, old.value = entry.value := by
  induction entries generalizing k with
  | nil => simp [shift] at member
  | cons first rest ih =>
    cases k with
    | zero =>
      rcases List.mem_cons.mp member with rfl | member
      · exact ⟨first, List.mem_cons_self, rfl⟩
      · exact ⟨entry, List.mem_cons_of_mem first member, rfl⟩
    | succ k =>
      rcases List.mem_cons.mp member with rfl | member
      · exact ⟨entry, List.mem_cons_self, rfl⟩
      · obtain ⟨old, inside, same⟩ := ih member
        exact ⟨old, List.mem_cons_of_mem first inside, same⟩

theorem Plain.subtree {code : Code} (plain : code.Plain) (n : Nat) : (code.subtree n).Plain := by
  intro entry member
  obtain ⟨old, inside, same⟩ := value_of_mem_shift member
  rw [← same]
  exact plain old (List.mem_of_mem_drop (List.mem_of_mem_take inside))

end Outline

structure Object.Within (n : Nat) (object : Object) : Prop where
  proto : object.proto.Within n
  props : ∀ prop ∈ object.props, prop.2.Within n

structure Closure.Within (n : Nat) (closure : Closure) : Prop where
  scope : closure.scope.Within n
  body : closure.body.Plain

theorem Object.Within.mono {n m : Nat} {object : Object} (within : object.Within n)
    (le : n ≤ m) : object.Within m :=
  ⟨within.proto.mono le, fun prop member => (within.props prop member).mono le⟩

theorem Closure.Within.mono {n m : Nat} {closure : Closure} (within : closure.Within n)
    (le : n ≤ m) : closure.Within m :=
  ⟨within.scope.mono le, within.body⟩

theorem within_insertProp {n : Nat} {key : String} {value : Value}
    {props : List (String × Value)} (within : ∀ prop ∈ props, prop.2.Within n)
    (new : value.Within n) : ∀ prop ∈ insertProp key value props, prop.2.Within n := by
  induction props with
  | nil => exact List.forall_mem_singleton.mpr new
  | cons first rest ih =>
    obtain ⟨here, later⟩ := List.forall_mem_cons.mp within
    rw [insertProp]
    split
    · exact List.forall_mem_cons.mpr ⟨new, later⟩
    · exact List.forall_mem_cons.mpr ⟨here, ih later⟩

theorem mem_of_lookup {props : List (String × Value)} {key : String} {value : Value}
    (found : props.lookup key = some value) : ∃ prop ∈ props, prop.2 = value := by
  induction props with
  | nil => cases found
  | cons first rest ih =>
    obtain ⟨name, content⟩ := first
    rw [List.lookup_cons] at found
    split at found
    · cases found
      exact ⟨_, List.mem_cons_self, rfl⟩
    · obtain ⟨prop, member, same⟩ := ih found
      exact ⟨prop, List.mem_cons_of_mem _ member, same⟩

namespace Store

/-- No reference of the store leads nowhere; `held` says which values a state of the host holds
on to. -/
structure Closed (held : σ → Value → Prop) (s : Store σ) : Prop where
  objects : ∀ object ∈ s.objects, object.Within s.objects.size
  closures : ∀ closure ∈ s.closures, closure.Within s.objects.size
  host : ∀ value, held s.host value → value.Within s.objects.size

variable {held : σ → Value → Prop}

namespace Closed

variable {s : Store σ} (closed : s.Closed held)
include closed

theorem rooted : s.Rooted := by
  intro id up above
  obtain ⟨object, found, next⟩ := Option.bind_eq_some_iff.mp above
  have within := (closed.objects object (Array.mem_of_getElem? found)).proto
  split at next
  case h_1 same =>
    cases next
    rwa [same] at within
  case h_2 => cases next

theorem lookup {id : Nat} {key : String} {value : Value} (found : s.lookup id key = some value) :
    value.Within s.objects.size := by
  obtain ⟨owner, -, own⟩ := Option.bind_eq_some_iff.mp found
  obtain ⟨object, there, own⟩ := Option.bind_eq_some_iff.mp own
  obtain ⟨prop, member, rfl⟩ := mem_of_lookup own
  exact (closed.objects object (Array.mem_of_getElem? there)).props prop member

theorem lookup_getD (id : Nat) (key : String) :
    ((s.lookup id key).getD .undefined).Within s.objects.size := by
  cases found : s.lookup id key with
  | none => trivial
  | some value => exact closed.lookup found

theorem closure (id : Nat) : (s.closure id).Within s.objects.size := by
  unfold Store.closure
  cases found : s.closures[id]? with
  | none =>
    refine ⟨trivial, fun entry member => ?_⟩
    obtain rfl := List.mem_singleton.mp member
    trivial
  | some closure => exact closed.closures closure (Array.mem_of_getElem? found)

end Closed

/-- The store has developed from `base`, no reference of it leads nowhere, and it has `n`
objects. -/
structure Follows (held : σ → Value → Prop) (base : Store σ) (n : Nat) (s : Store σ) : Prop where
  develops : base.Develops s
  closed : s.Closed held
  size : s.objects.size = n

namespace Follows

variable {base s : Store σ} {n : Nat}

theorem refl (closed : s.Closed held) : s.Follows held s.objects.size s :=
  ⟨.refl s, closed, rfl⟩

variable (follows : Follows held base n s)
include follows

theorem closure (id : Nat) : (s.closure id).Within n :=
  follows.size ▸ follows.closed.closure id

theorem withHost {host : σ} (holds : ∀ value, held host value → value.Within n) :
    Follows held base n { s with host := host } where
  develops := follows.develops.trans (.of_proto? rfl fun _ => rfl)
  closed := ⟨follows.closed.objects, follows.closed.closures, follows.size ▸ holds⟩
  size := follows.size

theorem newNative (name : String) : Follows held base n (s.newNative name).2 where
  develops := follows.develops.trans (.of_proto? rfl fun _ => rfl)
  closed := ⟨follows.closed.objects, follows.closed.closures, follows.closed.host⟩
  size := follows.size

theorem newClosure {closure : Closure} (within : closure.Within n) :
    Follows held base n (s.newClosure closure).2 where
  develops := follows.develops.trans (.of_proto? rfl fun _ => rfl)
  closed := by
    refine ⟨follows.closed.objects, fun other member => ?_, follows.closed.host⟩
    rcases Array.mem_push.mp member with old | rfl
    · exact follows.closed.closures other old
    · exact follows.size ▸ within
  size := follows.size

theorem size_lt : s.objects.size < n + 1 :=
  follows.size ▸ Nat.lt_succ_self s.objects.size

theorem newObject {object : Object} (within : object.Within n) :
    Follows held base (n + 1) (s.newObject object).2 := by
  have size : (s.newObject object).2.objects.size = n + 1 := by
    rw [Store.newObject, Array.size_push, follows.size]
  have more : s.objects.size ≤ (s.newObject object).2.objects.size := by
    rw [size, follows.size]
    exact Nat.le_succ n
  refine ⟨follows.develops.trans ⟨more, fun id inside => ?_, fun id up beyond above => ?_⟩,
    ⟨fun other member => ?_, fun closure member => ?_, fun value holds => ?_⟩, size⟩
  -- Objects keep their places, and what a new one refers to has a smaller number.
  · simp only [proto?, Store.newObject, Array.getElem?_push_lt inside,
      Array.getElem?_eq_getElem inside]
  · obtain ⟨added, found, next⟩ := Option.bind_eq_some_iff.mp above
    have last : added = object := by
      rw [Store.newObject, Array.getElem?_push] at found
      split at found
      · cases found
        rfl
      · rw [Array.getElem?_eq_none beyond] at found
        cases found
    have lower := within.proto
    rw [last] at next
    split at next
    case h_1 same =>
      cases next
      rw [same] at lower
      exact Nat.lt_of_lt_of_le lower (follows.size ▸ beyond)
    case h_2 => cases next
  · rcases Array.mem_push.mp member with old | rfl
    · exact (follows.closed.objects other old).mono more
    · exact size ▸ within.mono (Nat.le_succ n)
  · exact (follows.closed.closures closure member).mono more
  · exact (follows.closed.host value holds).mono more

theorem insert {value : Value} (id : Nat) (key : String) (within : value.Within n) :
    Follows held base n (s.insert id key value) := by
  have size : (s.insert id key value).objects.size = s.objects.size := Array.size_modify
  -- Only one object changes, and only its properties; which of them, the proof need not know.
  refine ⟨follows.develops.trans develops_insert, ⟨fun object member => ?_, ?_, ?_⟩,
    size.trans follows.size⟩
  · obtain ⟨place, found⟩ := Array.mem_iff_getElem?.mp member
    rw [Store.insert, Array.getElem?_modify] at found
    rw [size]
    split at found
    · obtain ⟨old, there, rfl⟩ := Option.map_eq_some_iff.mp found
      have before := follows.closed.objects old (Array.mem_of_getElem? there)
      exact ⟨before.proto, within_insertProp before.props (follows.size ▸ within)⟩
    · exact follows.closed.objects object (Array.mem_of_getElem? found)
  · rw [size]
    exact follows.closed.closures
  · rw [size]
    exact follows.closed.host

theorem index {object value : Value} {key : String} {s' : Store σ}
    (read : s.index object key = .ok (value, s')) :
    value.Within n ∧ Follows held base n s' := by
  unfold Store.index at read
  cases which : objectOf object with
  | error e =>
    rw [which] at read
    cases read
  | ok id =>
    rw [which] at read
    simp only [Except.map] at read
    split at read
    case h_1 found there =>
      cases read
      exact ⟨follows.size ▸ follows.closed.lookup there, follows⟩
    case h_2 =>
      cases read
      exact ⟨trivial, follows.insert id key trivial⟩

theorem set {object value : Value} {key : String} {s' : Store σ} (within : value.Within n)
    (written : s.set object key value = .ok s') : Follows held base n s' := by
  unfold Store.set at written
  cases which : objectOf object with
  | error e =>
    rw [which] at written
    cases written
  | ok id =>
    rw [which] at written
    cases written
    exact follows.insert id key within

end Follows

end Store

/-- A host that makes no reference lead nowhere: given objects of a store without such references,
its functions leave such a store and give an object of it. They do not change prototypes, and new
objects get older ones as their prototypes. -/
structure Host.Faithful (held : σ → Value → Prop) (host : Host σ) : Prop where
  develops : ∀ (f : Nat) (args : List Value) (s : Store σ), s.Closed held →
    (∀ arg ∈ args, arg.Within s.objects.size) → s.Develops ((host.call f args).run s).2
  closed : ∀ (f : Nat) (args : List Value) (s : Store σ), s.Closed held →
    (∀ arg ∈ args, arg.Within s.objects.size) → ((host.call f args).run s).2.Closed held
  gives : ∀ (f : Nat) (args : List Value) (s : Store σ), s.Closed held →
    (∀ arg ∈ args, arg.Within s.objects.size) →
    ∀ value, ((host.call f args).run s).1 = .ok value →
      value.Within ((host.call f args).run s).2.objects.size

namespace Host.Faithful

variable {held : σ → Value → Prop} {host : Host σ} {base : Store σ} {n : Nat}

theorem of_leads (leads : ∀ (base : Store σ) (n f : Nat) (args : List Value),
    (∀ arg ∈ args, arg.Within n) →
      Leads (Store.Follows held base) n (host.call f args) fun m value => value.Within m) :
    host.Faithful held where
  develops := by
    intro f args s closed within
    obtain ⟨m, -, follows, -⟩ := leads s _ f args within s (.refl closed)
    exact follows.develops
  closed := by
    intro f args s closed within
    obtain ⟨m, -, follows, -⟩ := leads s _ f args within s (.refl closed)
    exact follows.closed
  gives := by
    intro f args s closed within value result
    obtain ⟨m, -, follows, gives⟩ := leads s _ f args within s (.refl closed)
    exact follows.size ▸ gives value result

theorem call (faithful : host.Faithful held) (f : Nat) {args : List Value}
    (within : ∀ arg ∈ args, arg.Within n) :
    Leads (Store.Follows held base) n (host.call f args) fun m value => value.Within m := by
  rintro s ⟨develops, closed, rfl⟩
  have more := faithful.develops f args s closed within
  exact ⟨_, more.grows, ⟨develops.trans more, faithful.closed f args s closed within, rfl⟩,
    faithful.gives f args s closed within⟩

theorem hooks (faithful : host.Faithful held) (base : Store σ) (n f : Nat) :
    Leads (Store.Follows held base) n (host.call f []) fun _ _ => True :=
  (faithful.call f (List.forall_mem_nil _)).mono fun _ _ _ _ => trivial

end Host.Faithful

end StepScript
