import StepScript.Proofs.Program.Shape
import StepScript.Proofs.Value.Computations

/-! Closures of a store and computations that leave them alone.

A closure is made from a function literal, and its body is a copy of the block of
that literal. `Store.Bodies` says this of every closure of a store. A host may
change the store as it likes as long as it makes no closures with other bodies,
and then no conversion and no operator does.
-/

set_option autoImplicit false

namespace StepScript

variable {σ α β : Type}

def Store.Bodies (s : Store σ) : Prop :=
  ∀ closure ∈ s.closures, closure.body.Rooted .block

namespace Store

theorem rooted_idle : Closure.idle.body.Rooted .block :=
  ⟨.leaf (.statement .block), rfl, .leaf rfl, rfl⟩

theorem bodies_empty (host : σ) : (Store.empty host).Bodies := by
  intro closure member
  simp [Store.empty] at member

theorem Bodies.closure {s : Store σ} (bodies : s.Bodies) (id : Nat) :
    (s.closure id).body.Rooted .block := by
  unfold Store.closure
  cases found : s.closures[id]? with
  | none => exact rooted_idle
  | some closure => exact bodies closure (Array.mem_of_getElem? found)

theorem Bodies.newClosure {s : Store σ} {closure : Closure} (bodies : s.Bodies)
    (rooted : closure.body.Rooted .block) : (s.newClosure closure).2.Bodies := by
  intro other member
  rcases Array.mem_push.mp member with old | rfl
  · exact bodies other old
  · exact rooted

theorem Bodies.of_closures {s s' : Store σ} (bodies : s.Bodies) (same : s'.closures = s.closures) :
    s'.Bodies := by
  intro closure member
  rw [same] at member
  exact bodies closure member

theorem Bodies.newObject {s : Store σ} (bodies : s.Bodies) (object : Object) :
    (s.newObject object).2.Bodies :=
  bodies.of_closures rfl

theorem Bodies.insert {s : Store σ} (bodies : s.Bodies) (id : Nat) (key : String) (value : Value) :
    (s.insert id key value).Bodies :=
  bodies.of_closures rfl

theorem Bodies.index {s s' : Store σ} {object value : Value} {key : String} (bodies : s.Bodies)
    (read : s.index object key = .ok (value, s')) : s'.Bodies := by
  unfold Store.index at read
  cases which : objectOf object with
  | error e =>
    rw [which] at read
    cases read
  | ok id =>
    rw [which] at read
    simp only [Except.map] at read
    split at read
    · cases read
      exact bodies
    · cases read
      exact bodies.insert id key .undefined

theorem Bodies.set {s s' : Store σ} {object value : Value} {key : String} (bodies : s.Bodies)
    (written : s.set object key value = .ok s') : s'.Bodies := by
  unfold Store.set at written
  cases which : objectOf object with
  | error e =>
    rw [which] at written
    cases written
  | ok id =>
    rw [which] at written
    cases written
    exact bodies.insert id key value

end Store

def Act.Keeps (computation : Act σ α) : Prop :=
  ∀ s : Store σ, s.Bodies → (computation.run s).2.Bodies

/-- No host function makes closures but such with shaped blocks. -/
def Host.Keeps (host : Host σ) : Prop :=
  ∀ f args, (host.call f args).Keeps

namespace Act

/-- A computation that keeps the bodies as they should be, whatever its result. -/
theorem keeps_of_leads {computation : Act σ α} {Q : Nat → α → Prop}
    (leads : Leads (fun _ => Store.Bodies) 0 computation Q) : computation.Keeps := by
  intro s bodies
  obtain ⟨m, -, kept, -⟩ := leads s bodies
  exact kept

theorem Keeps.leads {computation : Act σ α} (keeps : computation.Keeps) (n : Nat) :
    Leads (fun _ => Store.Bodies) n computation fun _ _ => True :=
  fun s bodies => ⟨n, Nat.le_refl n, keeps s bodies, fun _ _ => trivial⟩

theorem Keeps.pure (a : α) : Keeps (Pure.pure a : Act σ α) :=
  fun _ bodies => bodies

end Act

namespace Host.Keeps

variable {host : Host σ} (keeps : host.Keeps)
include keeps

theorem hooks (n f : Nat) :
    Leads (fun _ => Store.Bodies) n (host.call f []) fun _ _ => True :=
  (keeps f []).leads n

theorem toBoolean (value : Value) : (host.toBoolean value).Keeps :=
  Act.keeps_of_leads (leads_toBoolean keeps.hooks value)

theorem convert (conversion : Conversion) (value : Value) :
    (host.convert conversion value).Keeps :=
  Act.keeps_of_leads (leads_convert keeps.hooks conversion value)

theorem binary (op : BinaryOp) (left right : Value) : (host.binary op left right).Keeps :=
  Act.keeps_of_leads (leads_binary keeps.hooks op left right)

theorem unary (op : UnaryOp) (operand : Value) : (host.unary op operand).Keeps :=
  Act.keeps_of_leads (leads_unary keeps.hooks op operand)

theorem update (op : UpdateOp) (current operand : Value) :
    (host.update op current operand).Keeps :=
  Act.keeps_of_leads (leads_update keeps.hooks op current operand)

end Host.Keeps

end StepScript
