import StepScript.Proofs.Value.Bodies

/-! What conversions run into.

A conversion of an object asks its hook, and then it converts what the hook gives.
It can only ask hooks of the host: where it comes to one of the program, it fails.
`Stumbles` says that it comes to one, and `Trips` that this is not the hook of the
value itself but of something that a hook gave.
-/

set_option autoImplicit false

namespace StepScript

variable {σ α β : Type}

theorem Act.run_bind (x : Act σ α) (f : α → Act σ β) (s : Store σ) :
    (x >>= f).run s =
      match x.run s with
      | (.ok a, s') => (f a).run s'
      | (.error e, s') => (.error e, s') := by
  show ExceptT.bindCont f (x.run s).1 (x.run s).2 = _
  rcases x.run s with ⟨e | a, after⟩
  · rfl
  · rfl

section Parts

variable {x : Act σ α} {f : α → Act σ β} {s s' : Store σ}

theorem Act.error_of_bind {e : ValueError} (run : (x >>= f).run s = (.error e, s')) :
    x.run s = (.error e, s') ∨
      ∃ a s₁, x.run s = (.ok a, s₁) ∧ (f a).run s₁ = (.error e, s') := by
  rw [run_bind] at run
  rcases first : x.run s with ⟨e' | a, after⟩
  · simp only [first] at run
    cases run
    exact .inl rfl
  · simp only [first] at run
    exact .inr ⟨a, after, rfl, run⟩

theorem Act.ok_of_bind {b : β} (run : (x >>= f).run s = (.ok b, s')) :
    ∃ a s₁, x.run s = (.ok a, s₁) ∧ (f a).run s₁ = (.ok b, s') := by
  rw [run_bind] at run
  rcases first : x.run s with ⟨e | a, after⟩
  · simp only [first] at run
    cases run
  · simp only [first] at run
    exact ⟨a, after, rfl, run⟩

end Parts

def Store.Has (s : Store σ) (value : Value) : Prop :=
  ∀ id, value = .object id → id < s.objects.size

namespace Host

variable (host : Host σ)

/-- Converting the value comes to an object with a hook of the program: the value itself, or what
its own hook of the host gives. A function of the host may also fail in this way by itself. -/
inductive Stumbles (conversion : Conversion) : Value → Store σ → Prop where
  | script {value : Value} {s : Store σ} {id : Nat}
    (hooked : s.scriptHook? value conversion.hook = some id) : Stumbles conversion value s
  | native {value result : Value} {s s' : Store σ} {f : Nat}
    (hooked : s.hook? value conversion.hook = some (.native f))
    (run : (host.call f []).run s = (.ok result, s')) (next : Stumbles conversion result s') :
    Stumbles conversion value s
  | raised {value : Value} {s s' : Store σ} {f : Nat} {other : Conversion}
    (hooked : s.hook? value conversion.hook = some (.native f))
    (run : (host.call f []).run s = (.error (.scriptHook other), s')) :
    Stumbles conversion value s

/-- The value has a hook of the host, and it is what this gives that stumbles. -/
def Trips (conversion : Conversion) (value : Value) (s : Store σ) : Prop :=
  ∃ f, s.hook? value conversion.hook = some (.native f) ∧
    ((∃ result s', (host.call f []).run s = (.ok result, s') ∧ host.Stumbles conversion result s') ∨
      ∃ other s', (host.call f []).run s = (.error (.scriptHook other), s'))

/-- Host functions that run as hooks change no hook of an object that is there. -/
structure Gentle : Prop where
  grows : ∀ f s, s.objects.size ≤ ((host.call f []).run s).2.objects.size
  hooks : ∀ f s id key, id < s.objects.size →
    ((host.call f []).run s).2.hook? (.object id) key = s.hook? (.object id) key

variable {host}

theorem run_runHook (id : Nat) (conversion : Conversion) (s : Store σ) :
    (host.runHook id conversion).run s =
      match s.hook? (.object id) conversion.hook with
      | none => (.ok none, s)
      | some (.script _) => (.error (.scriptHook conversion), s)
      | some (.native f) =>
        match (host.call f []).run s with
        | (.ok result, s') => (.ok (some result), s')
        | (.error e, s') => (.error e, s') := by
  have asked : (get : Act σ (Store σ)).run s = (.ok s, s) := rfl
  simp only [runHook, Act.run_bind, asked]
  rcases s.hook? (.object id) conversion.hook with _ | f | f
  · rfl
  · simp only [Act.run_bind]
    rcases (host.call f []).run s with ⟨e | result, after⟩
    · rfl
    · rfl
  · rfl

section Stumbles

variable {conversion other : Conversion} {id : Nat} {s s' : Store σ}

theorem stumbles_of_runHook
    (run : (host.runHook id conversion).run s = (.error (.scriptHook other), s')) :
    host.Stumbles conversion (.object id) s := by
  rw [run_runHook] at run
  split at run
  case h_1 => cases run
  case h_2 hook hooked => exact .script (by rw [Store.scriptHook?, hooked])
  case h_3 f hooked =>
    split at run
    case h_1 => cases run
    case h_2 e after failed =>
      cases run
      exact .raised hooked failed

theorem stumbles_of_hook {result : Value}
    (run : (host.runHook id conversion).run s = (.ok (some result), s'))
    (next : host.Stumbles conversion result s') : host.Stumbles conversion (.object id) s := by
  rw [run_runHook] at run
  split at run
  case h_1 => cases run
  case h_2 => cases run
  case h_3 f hooked =>
    split at run
    case h_1 value after ran =>
      cases run
      exact .native hooked ran next
    case h_2 => cases run

theorem stumbles_of_toNumberWithin {limit : Nat} {value : Value}
    (run : (host.toNumberWithin limit value).run s = (.error (.scriptHook other), s')) :
    host.Stumbles .toNumber value s := by
  fun_induction host.toNumberWithin limit value generalizing s with
  | case8 limit id ih =>
    rcases Act.error_of_bind run with asked | ⟨answer, after, asked, rest⟩
    · exact stumbles_of_runHook asked
    · cases answer with
      | none => cases rest
      | some result => exact stumbles_of_hook asked (ih result rest)
  | _ => cases run

theorem stumbles_of_toBooleanWithin {limit : Nat} {value : Value}
    (run : (host.toBooleanWithin limit value).run s = (.error (.scriptHook other), s')) :
    host.Stumbles .toBoolean value s := by
  fun_induction host.toBooleanWithin limit value generalizing s with
  | case8 limit id ih =>
    rcases Act.error_of_bind run with asked | ⟨answer, after, asked, rest⟩
    · exact stumbles_of_runHook asked
    · cases answer with
      | none => cases rest
      | some result => exact stumbles_of_hook asked (ih result rest)
  | _ => cases run

/-- A conversion that comes to a hook of the program stumbled over one. -/
theorem stumbles_of_convert {value : Value}
    (run : (host.convert conversion value).run s = (.error (.scriptHook other), s')) :
    host.Stumbles conversion value s := by
  cases conversion with
  | toNumber =>
    rw [convert, ← bind_pure_comp] at run
    rcases Act.error_of_bind run with failed | ⟨x, after, -, rest⟩
    · exact stumbles_of_toNumberWithin failed
    · cases rest
  | toBoolean =>
    rw [convert, ← bind_pure_comp] at run
    rcases Act.error_of_bind run with failed | ⟨b, after, -, rest⟩
    · exact stumbles_of_toBooleanWithin failed
    · cases rest

theorem primitive_of_convert {value result : Value}
    (run : (host.convert conversion value).run s = (.ok result, s')) (id : Nat) :
    result ≠ .object id := by
  cases conversion with
  | toNumber | toBoolean =>
    rw [convert, ← bind_pure_comp] at run
    obtain ⟨primitive, after, -, rest⟩ := Act.ok_of_bind run
    cases rest
    simp

theorem Stumbles.trips {value : Value} (stumbles : host.Stumbles conversion value s)
    (plain : s.scriptHook? value conversion.hook = none) : host.Trips conversion value s := by
  cases stumbles with
  | script hooked => cases plain.symm.trans hooked
  | native hooked run next => exact ⟨_, hooked, .inl ⟨_, _, run, next⟩⟩
  | raised hooked run => exact ⟨_, hooked, .inr ⟨_, _, run⟩⟩

theorem Stumbles.object {value : Value} (stumbles : host.Stumbles conversion value s) :
    ∃ id, value = .object id := by
  have hooked {f : Function} (hook : s.hook? value conversion.hook = some f) :
      ∃ id, value = .object id := by
    cases value with
    | object id => exact ⟨id, rfl⟩
    | _ => cases hook
  cases stumbles with
  | script found =>
    rw [Store.scriptHook?] at found
    split at found
    · exact hooked ‹_›
    · cases found
  | native hook => exact hooked hook
  | raised hook => exact hooked hook

end Stumbles

/-! ## Host functions that change no hooks -/

section Gentle

variable (gentle : host.Gentle) {conversion : Conversion} {s s' : Store σ} {id : Nat}
  (present : id < s.objects.size)
include gentle present

theorem Gentle.runHook {other : Nat} {result : Except ValueError (Option Value)}
    (run : (host.runHook other conversion).run s = (result, s')) :
    id < s'.objects.size ∧ ∀ key, s'.hook? (.object id) key = s.hook? (.object id) key := by
  rw [run_runHook] at run
  split at run
  case h_1 =>
    cases run
    exact ⟨present, fun _ => rfl⟩
  case h_2 =>
    cases run
    exact ⟨present, fun _ => rfl⟩
  case h_3 f hooked =>
    have grows := gentle.grows f s
    have hooks := gentle.hooks f s id
    rcases ran : (host.call f []).run s with ⟨e | value, after⟩
    · rw [ran] at run grows hooks
      cases run
      exact ⟨Nat.lt_of_lt_of_le present grows, fun key => hooks key present⟩
    · rw [ran] at run grows hooks
      cases run
      exact ⟨Nat.lt_of_lt_of_le present grows, fun key => hooks key present⟩

theorem Gentle.toNumberWithin {limit : Nat} {value : Value} {result : Except ValueError Float}
    (run : (host.toNumberWithin limit value).run s = (result, s')) :
    id < s'.objects.size ∧ ∀ key, s'.hook? (.object id) key = s.hook? (.object id) key := by
  fun_induction host.toNumberWithin limit value generalizing s with
  | case8 limit other ih =>
    rw [Act.run_bind] at run
    rcases asked : (host.runHook other .toNumber).run s with ⟨e | _ | value, after⟩
    · simp only [asked] at run
      cases run
      exact gentle.runHook present asked
    · simp only [asked] at run
      cases run
      exact gentle.runHook present asked
    · simp only [asked] at run
      obtain ⟨present', hooks⟩ := gentle.runHook present asked
      obtain ⟨present'', hooks'⟩ := ih value present' run
      exact ⟨present'', fun key => (hooks' key).trans (hooks key)⟩
  | _ =>
    cases run
    exact ⟨present, fun _ => rfl⟩

end Gentle

/-! ## Operators that fail -/

section Binary

variable {op : BinaryOp} {left right : Value} {s s' : Store σ} {e : ValueError}

theorem toNumbers_error (run : (host.toNumbers left right).run s = (.error e, s')) :
    (host.toNumber left).run s = (.error e, s') ∨
      ∃ x s₁, (host.toNumber left).run s = (.ok x, s₁) ∧
        (host.toNumber right).run s₁ = (.error e, s') := by
  rcases Act.error_of_bind run with failed | ⟨x, s₁, first, rest⟩
  · exact .inl failed
  · rcases Act.error_of_bind rest with failed | ⟨y, s₂, -, rest⟩
    · exact .inr ⟨x, s₁, first, failed⟩
    · cases rest

theorem compareValues_error (run : (host.compareValues left right).run s = (.error e, s')) :
    (left.isString && right.isString) = false ∧
      (host.toNumbers left right).run s = (.error e, s') := by
  unfold compareValues at run
  split at run
  case h_1 => cases run
  case h_2 other =>
    rcases Act.error_of_bind run with failed | ⟨pair, s₁, -, rest⟩
    · refine ⟨?_, failed⟩
      cases left with
      | string a =>
        cases right with
        | string b => exact absurd rfl (other a b rfl)
        | _ => rfl
      | _ => rfl
    · cases rest

theorem binary_error (run : (host.binary op left right).run s = (.error e, s')) :
    op.isNumericOn left right = true ∧ (host.toNumbers left right).run s = (.error e, s') := by
  unfold binary at run
  split at run
  case h_1 =>
    split at run
    · cases run
    · rename_i neither
      rcases Act.error_of_bind run with failed | ⟨pair, s₁, -, rest⟩
      · exact ⟨by simpa [BinaryOp.isNumericOn] using neither, failed⟩
      · cases rest
  case h_6 | h_7 | h_8 | h_9 =>
    rcases Act.error_of_bind run with failed | ⟨order, s₁, -, rest⟩
    · obtain ⟨neither, failed⟩ := compareValues_error failed
      exact ⟨by rw [BinaryOp.isNumericOn, neither]; rfl, failed⟩
    · cases rest
  case h_10 | h_11 | h_12 | h_13 => cases run
  all_goals
    rcases Act.error_of_bind run with failed | ⟨pair, s₁, -, rest⟩
    · exact ⟨rfl, failed⟩
    · cases rest

end Binary

theorem stumbles_of_unary {op : UnaryOp} {operand : Value} {s s' : Store σ} {other : Conversion}
    (run : (host.unary op operand).run s = (.error (.scriptHook other), s')) :
    ∃ conversion, op.conversion? = some conversion ∧ host.Stumbles conversion operand s := by
  cases op with
  | not =>
    rcases Act.error_of_bind run with failed | ⟨b, s₁, -, rest⟩
    · exact ⟨_, rfl, stumbles_of_toBooleanWithin failed⟩
    · cases rest
  | plus | negate =>
    rcases Act.error_of_bind run with failed | ⟨x, s₁, -, rest⟩
    · exact ⟨_, rfl, stumbles_of_toNumberWithin failed⟩
    · cases rest
  | typeof | void => cases run

end Host

end StepScript
