import StepScript.Operator.Evaluate

/-! Stores that differ in the state of the host.

A store keeps the state of its host beside the objects, the closures and the names. What a
store says of values and objects does not depend on that state, and no change of an object
or a closure changes it.
-/

set_option autoImplicit false

namespace StepScript

variable {σ τ : Type}

namespace Store

def withHost (s : Store σ) (host : τ) : Store τ :=
  ⟨s.objects, s.closures, s.natives, host⟩

variable (s : Store σ) (h : τ)

@[simp] theorem withHost_host : (s.withHost h).host = h := rfl

/-! ## Properties and functions -/

theorem ownerWithin_withHost (key : String) (limit id : Nat) :
    (s.withHost h).ownerWithin key limit id = s.ownerWithin key limit id := by
  induction limit generalizing id with
  | zero => rfl
  | succ limit ih =>
    have inside : (s.withHost h).ownerWithin key limit = s.ownerWithin key limit := funext ih
    rw [ownerWithin, ownerWithin, inside]
    rfl

@[simp] theorem owner?_withHost (id : Nat) (key : String) :
    (s.withHost h).owner? id key = s.owner? id key :=
  ownerWithin_withHost s h key s.objects.size id

@[simp] theorem lookup_withHost (id : Nat) (key : String) :
    (s.withHost h).lookup id key = s.lookup id key := by
  rw [lookup, lookup, owner?_withHost]
  rfl

@[simp] theorem get_withHost (value : Value) (key : String) :
    (s.withHost h).get value key = s.get value key := by
  simp only [get, lookup_withHost]

@[simp] theorem index_withHost (value : Value) (key : String) :
    (s.withHost h).index value key =
      (s.index value key).map fun (found, after) => (found, after.withHost h) := by
  unfold index
  cases objectOf value with
  | error e => rfl
  | ok id =>
    simp only [Except.map, lookup_withHost]
    split
    · rfl
    · rfl

@[simp] theorem set_withHost (value : Value) (key : String) (new : Value) :
    (s.withHost h).set value key new = (s.set value key new).map (·.withHost h) := by
  unfold set
  cases objectOf value with
  | error e => rfl
  | ok id => rfl

theorem host_of_index {s : Store σ} {object : Value} {key : String} {found : Value × Store σ}
    (read : s.index object key = .ok found) : found.2.host = s.host := by
  unfold index at read
  cases which : objectOf object with
  | error e =>
    rw [which] at read
    cases read
  | ok id =>
    rw [which] at read
    simp only [Except.map] at read
    split at read
    · cases read
      rfl
    · cases read
      rfl

theorem host_of_set {s after : Store σ} {object : Value} {key : String} {value : Value}
    (written : s.set object key value = .ok after) : after.host = s.host := by
  unfold set at written
  cases which : objectOf object with
  | error e =>
    rw [which] at written
    cases written
  | ok id =>
    rw [which] at written
    cases written
    rfl

@[simp] theorem callee_withHost (value : Value) : (s.withHost h).callee value = s.callee value := by
  cases value with
  | object id => simp only [callee, lookup_withHost]
  | _ => rfl

@[simp] theorem hook?_withHost (value : Value) (key : String) :
    (s.withHost h).hook? value key = s.hook? value key := by
  cases value with
  | object id => simp only [hook?, lookup_withHost, callee_withHost]
  | _ => rfl

@[simp] theorem scriptHook?_withHost (value : Value) (key : String) :
    (s.withHost h).scriptHook? value key = s.scriptHook? value key := by
  rw [scriptHook?, scriptHook?, hook?_withHost]

@[simp] theorem ownName?_withHost (value : Value) :
    (s.withHost h).ownName? value = s.ownName? value := by
  unfold ownName?
  split
  · rfl
  · rfl

@[simp] theorem functionName_withHost (f : Function) :
    (s.withHost h).functionName f = s.functionName f := by
  cases f with
  | native id => rfl
  | script id => rfl

/-! ## Texts -/

theorem objectText_withHost (limit : Nat) (path : List Nat) (id : Nat) :
    (s.withHost h).objectText limit path id = s.objectText limit path id := by
  induction limit generalizing path id with
  | zero =>
    unfold objectText
    rfl
  | succ limit ih =>
    have inside : (s.withHost h).objectText limit (id :: path) = s.objectText limit (id :: path) :=
      funext (ih (id :: path))
    unfold objectText
    simp only [inside]
    rfl

@[simp] theorem text_withHost (value : Value) : (s.withHost h).text value = s.text value := by
  cases value with
  | object id => exact objectText_withHost s h s.objects.size [] id
  | _ => rfl

@[simp] theorem looseEquals_withHost (left right : Value) :
    (s.withHost h).looseEquals left right = s.looseEquals left right := by
  simp only [looseEquals, text_withHost]

end Store

end StepScript
