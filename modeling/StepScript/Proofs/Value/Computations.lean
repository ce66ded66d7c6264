import StepScript.Operator.Evaluate

/-! Computations and growing invariants.

An invariant `I n` of the state may speak of a number `n` that can grow, such as the
number of objects. `Leads I n x Q` says that `x` comes from `I n` to `I m` for some `m`
that is no smaller, also where it fails, and that its result satisfies `Q m`.
Conversions and operators change the store only through hooks of the host, which are
called without arguments. So they lead on wherever such calls do, and operators give
no objects.
-/

set_option autoImplicit false

namespace StepScript

variable {σ α β : Type}

def Value.Within (n : Nat) : Value → Prop
  | .object id => id < n
  | _ => True

theorem Value.Within.mono {n m : Nat} {value : Value} (within : value.Within n) (le : n ≤ m) :
    value.Within m := by
  cases value with
  | object id => exact Nat.lt_of_lt_of_le within le
  | _ => trivial

section Judgements

variable {τ ε : Type} {I : Nat → τ → Prop} {n : Nat}

/-- From states with `I n` the computation comes to states with `I m`, where `m` is no smaller,
and its result satisfies `Q m`. -/
def Leads (I : Nat → τ → Prop) (n : Nat) (x : ExceptT ε (StateM τ) α) (Q : Nat → α → Prop) :
    Prop :=
  ∀ s, I n s → ∃ m ≥ n, I m (x.run s).2 ∧ ∀ a, (x.run s).1 = .ok a → Q m a

/-- The number stays as it is where the computation succeeds, and the result satisfies `Q`. -/
def Stays (I : Nat → τ → Prop) (n : Nat) (x : ExceptT ε (StateM τ) α) (Q : α → Prop) : Prop :=
  Leads I n x fun m a => m = n ∧ Q a

namespace Leads

theorem pure {Q : Nat → α → Prop} {a : α} (holds : Q n a) :
    Leads I n (Pure.pure a : ExceptT ε (StateM τ) α) Q := by
  refine fun s kept => ⟨n, Nat.le_refl n, kept, ?_⟩
  rintro b ⟨⟩
  exact holds

theorem throw {Q : Nat → α → Prop} (e : ε) :
    Leads I n (MonadExcept.throw e : ExceptT ε (StateM τ) α) Q :=
  fun _ kept => ⟨n, Nat.le_refl n, kept, nofun⟩

theorem bind {x : ExceptT ε (StateM τ) α} {f : α → ExceptT ε (StateM τ) β} {Q : Nat → α → Prop}
    {R : Nat → β → Prop} (first : Leads I n x Q)
    (next : ∀ m ≥ n, ∀ a, Q m a → Leads I m (f a) R) : Leads I n (x >>= f) R := by
  intro s kept
  obtain ⟨m, le, after, result⟩ := first s kept
  show ∃ k ≥ n, I k ((ExceptT.bindCont f (x.run s).1).run (x.run s).2).2 ∧
    ∀ b, ((ExceptT.bindCont f (x.run s).1).run (x.run s).2).1 = .ok b → R k b
  cases answer : (x.run s).1 with
  -- The number may have grown also where nothing more runs.
  | error e => exact ⟨m, le, after, nofun⟩
  | ok a =>
    obtain ⟨k, more, done⟩ := next m le a (result a answer) _ after
    exact ⟨k, Nat.le_trans le more, done⟩

theorem after {x : ExceptT ε (StateM τ) α} {f : α → ExceptT ε (StateM τ) β} {Q : α → Prop}
    {R : Nat → β → Prop} (first : Stays I n x Q) (next : ∀ a, Q a → Leads I n (f a) R) :
    Leads I n (x >>= f) R := by
  refine first.bind ?_
  rintro m - a ⟨rfl, holds⟩
  exact next a holds

theorem mono {x : ExceptT ε (StateM τ) α} {Q R : Nat → α → Prop} (leads : Leads I n x Q)
    (weaker : ∀ m ≥ n, ∀ a, Q m a → R m a) : Leads I n x R := by
  intro s kept
  obtain ⟨m, le, after, result⟩ := leads s kept
  exact ⟨m, le, after, fun a answer => weaker m le a (result a answer)⟩

theorem set {m : Nat} {s : τ} (le : n ≤ m) (kept : I m s) :
    Leads I n (MonadStateOf.set s : ExceptT ε (StateM τ) PUnit) fun k _ => k = m :=
  fun _ _ => ⟨m, le, kept, fun _ _ => rfl⟩

theorem map {x : ExceptT ε (StateM τ) α} {Q : Nat → β → Prop} {f : α → β}
    (leads : Leads I n x fun m a => Q m (f a)) : Leads I n (f <$> x) Q := by
  rw [← bind_pure_comp]
  exact leads.bind fun _ _ _ => .pure

theorem ite {c : Prop} [Decidable c] {x y : ExceptT ε (StateM τ) α} {Q : Nat → α → Prop}
    (yes : Leads I n x Q) (no : Leads I n y Q) : Leads I n (if c then x else y) Q := by
  split
  · exact yes
  · exact no

end Leads

namespace Stays

theorem pure {Q : α → Prop} {a : α} (holds : Q a) :
    Stays I n (Pure.pure a : ExceptT ε (StateM τ) α) Q :=
  Leads.pure ⟨rfl, holds⟩

theorem throw {Q : α → Prop} (e : ε) :
    Stays I n (MonadExcept.throw e : ExceptT ε (StateM τ) α) Q :=
  Leads.throw e

theorem get : Stays I n (MonadState.get : ExceptT ε (StateM τ) τ) (I n) := by
  refine fun s kept => ⟨n, Nat.le_refl n, kept, ?_⟩
  rintro t ⟨⟩
  exact ⟨rfl, kept⟩

theorem modify {f : τ → τ} (keeps : ∀ s, I n s → I n (f s)) :
    Stays I n (modify f : ExceptT ε (StateM τ) PUnit) fun _ => True :=
  fun s kept => ⟨n, Nat.le_refl n, keeps s kept, fun _ _ => ⟨rfl, trivial⟩⟩

theorem bind {x : ExceptT ε (StateM τ) α} {f : α → ExceptT ε (StateM τ) β} {Q : α → Prop}
    {R : β → Prop} (first : Stays I n x Q) (next : ∀ a, Q a → Stays I n (f a) R) :
    Stays I n (x >>= f) R :=
  Leads.after first next

theorem ite {c : Prop} [Decidable c] {x y : ExceptT ε (StateM τ) α} {Q : α → Prop}
    (yes : Stays I n x Q) (no : Stays I n y Q) : Stays I n (if c then x else y) Q :=
  Leads.ite yes no

theorem leads {x : ExceptT ε (StateM τ) α} {Q : α → Prop} {R : Nat → α → Prop}
    (stays : Stays I n x Q) (weaker : ∀ a, Q a → R n a) : Leads I n x R := by
  refine stays.mono ?_
  rintro m - a ⟨rfl, holds⟩
  exact weaker a holds

end Stays

end Judgements

namespace Host

theorem leads_callValue {host : Host σ} {I : Nat → Store σ → Prop} {n : Nat} {args : List Value}
    {Q : Nat → Value → Prop} (calls : ∀ f, Leads I n (host.call f args) Q) (value : Value) :
    Leads I n (host.callValue value args) Q := by
  have answers {α : Type} (result : Except ValueError α) :
      Stays I n (answer result : Act σ α) fun _ => True := by
    cases result with
    | ok a => exact .pure trivial
    | error e => exact .throw e
  refine .after .get fun s _ => .after (answers _) fun function _ => ?_
  cases function with
  | native f => exact calls f
  | script id => exact .after .get fun _ _ => .throw _

variable {host : Host σ} {I : Nat → Store σ → Prop} {n : Nat}
  (hooks : ∀ n f, Leads I n (host.call f []) fun _ _ => True)
include hooks

theorem leads_runHook (id : Nat) (conversion : Conversion) :
    Leads I n (host.runHook id conversion) fun _ _ => True := by
  refine .after .get fun s _ => ?_
  split
  · exact .pure trivial
  · exact .throw _
  · exact .bind (hooks _ _) fun _ _ _ _ => .pure trivial

theorem leads_toNumberWithin (limit : Nat) (value : Value) :
    Leads I n (host.toNumberWithin limit value) fun _ _ => True := by
  fun_induction Host.toNumberWithin host limit value generalizing n with
  -- Only the result of a hook is converted in its turn.
  | case8 limit id ih =>
    refine .bind (leads_runHook hooks id .toNumber) fun _ _ result _ => ?_
    cases result with
    | none => exact .pure trivial
    | some value => exact ih value
  | _ => first | exact .pure trivial | exact .throw _

theorem leads_toBooleanWithin (limit : Nat) (value : Value) :
    Leads I n (host.toBooleanWithin limit value) fun _ _ => True := by
  fun_induction Host.toBooleanWithin host limit value generalizing n with
  | case8 limit id ih =>
    refine .bind (leads_runHook hooks id .toBoolean) fun _ _ result _ => ?_
    cases result with
    | none => exact .pure trivial
    | some value => exact ih value
  | _ => first | exact .pure trivial | exact .throw _

theorem leads_toNumber (value : Value) : Leads I n (host.toNumber value) fun _ _ => True :=
  leads_toNumberWithin hooks nestingLimit value

theorem leads_toBoolean (value : Value) : Leads I n (host.toBoolean value) fun _ _ => True :=
  leads_toBooleanWithin hooks nestingLimit value

theorem leads_convert (conversion : Conversion) (value : Value) :
    Leads I n (host.convert conversion value) fun _ => Value.Within 0 := by
  cases conversion with
  | toNumber => exact .map ((leads_toNumber hooks value).mono fun _ _ _ _ => trivial)
  | toBoolean => exact .map ((leads_toBoolean hooks value).mono fun _ _ _ _ => trivial)

theorem leads_toNumbers (left right : Value) :
    Leads I n (host.toNumbers left right) fun _ _ => True :=
  .bind (leads_toNumber hooks left) fun _ _ _ _ =>
    .bind (leads_toNumber hooks right) fun _ _ _ _ => .pure trivial

theorem leads_compareValues (left right : Value) :
    Leads I n (host.compareValues left right) fun _ _ => True := by
  unfold Host.compareValues
  split
  · exact .pure trivial
  · exact .bind (leads_toNumbers hooks left right) fun _ _ _ _ => .pure trivial

theorem leads_binary (op : BinaryOp) (left right : Value) :
    Leads I n (host.binary op left right) fun _ => Value.Within 0 := by
  unfold Host.binary
  split
  case h_1 =>
    split
    · exact .after .get fun s _ => .pure trivial
    · exact .bind (leads_toNumbers hooks left right) fun _ _ _ _ => .pure trivial
  case h_6 | h_7 | h_8 | h_9 =>
    exact .bind (leads_compareValues hooks left right) fun _ _ _ _ => .pure trivial
  case h_10 | h_11 => exact .after .get fun s _ => .pure trivial
  case h_12 | h_13 => exact .pure trivial
  all_goals exact .bind (leads_toNumbers hooks left right) fun _ _ _ _ => .pure trivial

theorem leads_unary (op : UnaryOp) (operand : Value) :
    Leads I n (host.unary op operand) fun _ => Value.Within 0 := by
  cases op with
  | not => exact .bind (leads_toBoolean hooks operand) fun _ _ _ _ => .pure trivial
  | plus | negate => exact .bind (leads_toNumber hooks operand) fun _ _ _ _ => .pure trivial
  | typeof | void => exact .pure trivial

theorem leads_update (op : UpdateOp) (current operand : Value) :
    Leads I n (host.update op current operand) fun _ value =>
      value = operand ∨ value.Within 0 := by
  cases op with
  | assign => exact .pure (.inl rfl)
  | increment | decrement =>
    exact .bind (leads_toNumber hooks current) fun _ _ _ _ => .pure (.inr trivial)
  | _ => exact (leads_binary hooks _ current operand).mono fun _ _ _ => .inr

end Host

end StepScript
