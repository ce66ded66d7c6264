import StepScript.Proofs.Value.Hosts

/-! Computations in lockstep.

Two computations over different states are alike if, from states that correspond, both come
to values that correspond or both fail with the same error, in states that correspond again.
There is one rule for each way computations are put together. The states here are stores
with different hosts: where the functions of two hosts are alike, so are the conversions and
the operators that call them.
-/

set_option autoImplicit false

namespace StepScript

variable {ε S T σ τ α β α' β' : Type}

/-! ## Pairs of computations -/

/-- Both results are values that correspond, or the same error, and so do the states. -/
def Paired (P : S → T → Prop) (V : α → β → Prop) : Except ε α × S → Except ε β × T → Prop
  | (.ok a, s), (.ok b, t) => V a b ∧ P s t
  | (.error e, s), (.error e', t) => e = e' ∧ P s t
  | _, _ => False

/-- From states that correspond the computations come to results that do. -/
def Alike (P : S → T → Prop) (V : α → β → Prop) (x : ExceptT ε (StateM S) α)
    (y : ExceptT ε (StateM T) β) : Prop :=
  ∀ s t, P s t → Paired P V (x.run s) (y.run t)

namespace Paired

variable {P : S → T → Prop} {V : α → β → Prop} {result : Except ε α × S}
  {result' : Except ε β × T}

theorem states (paired : Paired P V result result') : P result.2 result'.2 := by
  rcases result with ⟨e | a, s⟩ <;> rcases result' with ⟨e' | b, t⟩
  · exact paired.2
  · exact paired.elim
  · exact paired.elim
  · exact paired.2

theorem mono {Q : S → T → Prop} {W : α → β → Prop} (paired : Paired P V result result')
    (states : ∀ s t, P s t → Q s t) (values : ∀ a b, V a b → W a b) :
    Paired Q W result result' := by
  rcases result with ⟨e | a, s⟩ <;> rcases result' with ⟨e' | b, t⟩
  · exact ⟨paired.1, states s t paired.2⟩
  · exact paired.elim
  · exact paired.elim
  · exact ⟨values a b paired.1, states s t paired.2⟩

theorem fst_eq {result : Except ε α × S} {result' : Except ε α × T}
    (paired : Paired P Eq result result') : result'.1 = result.1 := by
  rcases result with ⟨e | a, s⟩ <;> rcases result' with ⟨e' | b, t⟩
  · exact congrArg Except.error paired.1.symm
  · exact paired.elim
  · exact paired.elim
  · exact congrArg Except.ok paired.1.symm

theorem trans {U : Type} {Q : T → U → Prop} {W : S → U → Prop} {first : Except ε α × S}
    {second : Except ε α × T} {third : Except ε α × U} (paired : Paired P Eq first second)
    (paired' : Paired Q Eq second third) (states : ∀ s t u, P s t → Q t u → W s u) :
    Paired W Eq first third := by
  rcases first with ⟨e | a, s⟩ <;> rcases second with ⟨e' | b, t⟩
  · rcases third with ⟨e'' | c, u⟩
    · exact ⟨paired.1.trans paired'.1, states s t u paired.2 paired'.2⟩
    · exact paired'.elim
  · exact paired.elim
  · exact paired.elim
  · rcases third with ⟨e'' | c, u⟩
    · exact paired'.elim
    · exact ⟨paired.1.trans paired'.1, states s t u paired.2 paired'.2⟩

end Paired

namespace Alike

variable {P : S → T → Prop} {V : α → β → Prop} {W : α' → β' → Prop}

theorem pure {a : α} {b : β} (values : V a b) :
    Alike P V (Pure.pure a : ExceptT ε (StateM S) α) (Pure.pure b) :=
  fun _ _ states => ⟨values, states⟩

theorem throw (e : ε) :
    Alike P V (MonadExcept.throw e : ExceptT ε (StateM S) α) (MonadExcept.throw e) :=
  fun _ _ states => ⟨rfl, states⟩

theorem bind {x : ExceptT ε (StateM S) α} {y : ExceptT ε (StateM T) β}
    {f : α → ExceptT ε (StateM S) α'} {g : β → ExceptT ε (StateM T) β'} (first : Alike P V x y)
    (next : ∀ a b, V a b → Alike P W (f a) (g b)) : Alike P W (x >>= f) (y >>= g) := by
  intro s t states
  have paired := first s t states
  show Paired P W ((ExceptT.bindCont f (x.run s).1) (x.run s).2)
    ((ExceptT.bindCont g (y.run t).1) (y.run t).2)
  generalize x.run s = result at paired ⊢
  generalize y.run t = result' at paired ⊢
  rcases result with ⟨e | a, after⟩ <;> rcases result' with ⟨e' | b, after'⟩
  · exact paired
  · exact paired.elim
  · exact paired.elim
  · exact next a b paired.1 after after' paired.2

theorem map {x : ExceptT ε (StateM S) α} {y : ExceptT ε (StateM T) β} {f : α → α'} {g : β → β'}
    (alike : Alike P V x y) (values : ∀ a b, V a b → W (f a) (g b)) :
    Alike P W (f <$> x) (g <$> y) := by
  rw [← bind_pure_comp, ← bind_pure_comp]
  exact bind alike fun a b same => pure (values a b same)

theorem ite {c : Prop} [Decidable c] {x x' : ExceptT ε (StateM S) α}
    {y y' : ExceptT ε (StateM T) β} (yes : c → Alike P V x y) (no : ¬ c → Alike P V x' y') :
    Alike P V (if c then x else x') (if c then y else y') := by
  split
  · exact yes ‹c›
  · exact no ‹¬ c›

/-- A part with the same value on both sides is followed by parts that are alike for every
value. -/
theorem andThen {x : ExceptT ε (StateM S) α} {y : ExceptT ε (StateM T) α}
    {f : α → ExceptT ε (StateM S) α'} {g : α → ExceptT ε (StateM T) β'} (first : Alike P Eq x y)
    (next : ∀ a, Alike P W (f a) (g a)) : Alike P W (x >>= f) (y >>= g) :=
  bind first fun a _ same => same ▸ next a

theorem done {a : α} : Alike P Eq (Pure.pure a : ExceptT ε (StateM S) α) (Pure.pure a) :=
  pure rfl

end Alike

/-! ## Stores and hosts -/

inductive Store.Alike (R : σ → τ → Prop) (s : Store σ) : Store τ → Prop where
  | withHost {h : τ} (related : R s.host h) : Store.Alike R s (s.withHost h)

theorem Store.Alike.related {R : σ → τ → Prop} {s : Store σ} {s' : Store τ}
    (alike : s.Alike R s') : R s.host s'.host := by
  cases alike with
  | withHost related => exact related

theorem Store.Alike.withHost_eq {υ : Type} {R : σ → τ → Prop} {s : Store σ} {s' : Store τ}
    (alike : s.Alike R s') (h : υ) : s'.withHost h = s.withHost h := by
  cases alike with
  | withHost related => rfl

theorem Store.Alike.refl (s : Store σ) : s.Alike Eq s :=
  .withHost (h := s.host) rfl

theorem Store.Alike.eq {s s' : Store σ} (alike : s.Alike Eq s') : s' = s := by
  cases alike with
  | withHost related => exact related ▸ rfl

abbrev Act.Alike (R : σ → τ → Prop) (x : Act σ α) (y : Act τ α) : Prop :=
  StepScript.Alike (Store.Alike R) Eq x y

def Host.Alike (R : σ → τ → Prop) (host : Host σ) (host' : Host τ) : Prop :=
  ∀ f args, Act.Alike R (host.call f args) (host'.call f args)

theorem Host.Alike.refl (host : Host σ) : host.Alike Eq host := by
  intro f args s s' states
  rw [states.eq]
  rcases (host.call f args).run s with ⟨e | value, after⟩
  · exact ⟨rfl, .refl after⟩
  · exact ⟨rfl, .refl after⟩

namespace Alike

variable {R : σ → τ → Prop}

theorem set {s : Store σ} {s' : Store τ} (states : s.Alike R s') :
    Act.Alike R (MonadStateOf.set s) (MonadStateOf.set s') :=
  fun _ _ _ => ⟨rfl, states⟩

theorem get {f : Store σ → Act σ α} {g : Store τ → Act τ α}
    (next : ∀ s h, R s.host h → Act.Alike R (f s) (g (s.withHost h))) :
    Act.Alike R (MonadState.get >>= f) (MonadState.get >>= g) := by
  intro s s' states
  cases states with
  | withHost related => exact next s _ related s _ (.withHost related)

theorem answer (result : Except ValueError α) :
    Act.Alike R (Host.answer result) (Host.answer result) := by
  cases result with
  | ok value => exact done
  | error e => exact throw e

end Alike

namespace Host.Alike

variable {R : σ → τ → Prop} {host : Host σ} {host' : Host τ} (hosts : host.Alike R host')
include hosts

theorem runHook (id : Nat) (conversion : Conversion) :
    Act.Alike R (host.runHook id conversion) (host'.runHook id conversion) := by
  refine .get fun s h related => ?_
  simp only [Store.hook?_withHost]
  split
  · exact .done
  · exact .throw _
  · exact .andThen (hosts _ _) fun value => .done

theorem toNumberWithin (limit : Nat) (value : Value) :
    Act.Alike R (host.toNumberWithin limit value) (host'.toNumberWithin limit value) := by
  fun_induction Host.toNumberWithin host limit value with
  | case8 limit id ih =>
    refine .andThen (runHook hosts id .toNumber) fun result => ?_
    cases result with
    | none => exact .done
    | some value => exact ih value
  | case6 => simp only [Host.toNumberWithin]; exact .throw _
  | case7 => exact .throw _
  | _ => simp only [Host.toNumberWithin]; exact .done

theorem toBooleanWithin (limit : Nat) (value : Value) :
    Act.Alike R (host.toBooleanWithin limit value) (host'.toBooleanWithin limit value) := by
  fun_induction Host.toBooleanWithin host limit value with
  | case8 limit id ih =>
    refine .andThen (runHook hosts id .toBoolean) fun result => ?_
    cases result with
    | none => exact .done
    | some value => exact ih value
  | case7 => exact .throw _
  | _ => simp only [Host.toBooleanWithin]; exact .done

theorem toNumber (value : Value) : Act.Alike R (host.toNumber value) (host'.toNumber value) :=
  toNumberWithin hosts nestingLimit value

theorem toBoolean (value : Value) : Act.Alike R (host.toBoolean value) (host'.toBoolean value) :=
  toBooleanWithin hosts nestingLimit value

theorem convert (conversion : Conversion) (value : Value) :
    Act.Alike R (host.convert conversion value) (host'.convert conversion value) := by
  cases conversion with
  | toNumber => exact .map (toNumber hosts value) fun _ _ same => congrArg Value.number same
  | toBoolean => exact .map (toBoolean hosts value) fun _ _ same => congrArg Value.boolean same

theorem callValue (value : Value) (args : List Value) :
    Act.Alike R (host.callValue value args) (host'.callValue value args) := by
  refine .get fun s h related => ?_
  simp only [Store.callee_withHost]
  refine .andThen (.answer _) fun f => ?_
  cases f with
  | native f => exact hosts f args
  | script id =>
    refine .get fun s' h' related' => ?_
    simp only [Store.functionName_withHost]
    exact .throw _

theorem toNumbers (left right : Value) :
    Act.Alike R (host.toNumbers left right) (host'.toNumbers left right) :=
  .andThen (toNumber hosts left) fun _ => .andThen (toNumber hosts right) fun _ => .done

theorem compareValues (left right : Value) :
    Act.Alike R (host.compareValues left right) (host'.compareValues left right) := by
  unfold Host.compareValues
  split
  · exact .done
  · exact .andThen (toNumbers hosts left right) fun _ => .done

theorem binary (op : BinaryOp) (left right : Value) :
    Act.Alike R (host.binary op left right) (host'.binary op left right) := by
  cases op with
  | add =>
    refine .ite (fun text => ?_) fun numbers => ?_
    · exact .get fun s h related => .pure (by simp only [Store.text_withHost])
    · exact .andThen (toNumbers hosts left right) fun _ => .done
  | subtract | multiply | divide | remainder =>
    exact .andThen (toNumbers hosts left right) fun _ => .done
  | less | lessEqual | greater | greaterEqual =>
    exact .andThen (compareValues hosts left right) fun _ => .done
  | equal | notEqual =>
    refine .get fun s h related => ?_
    simp only [Store.looseEquals_withHost]
    exact .done
  | strictEqual | strictNotEqual => exact .done

theorem unary (op : UnaryOp) (operand : Value) :
    Act.Alike R (host.unary op operand) (host'.unary op operand) := by
  cases op with
  | not => exact .andThen (toBoolean hosts operand) fun _ => .done
  | plus | negate => exact .andThen (toNumber hosts operand) fun _ => .done
  | typeof | void => exact .done

theorem update (op : UpdateOp) (current operand : Value) :
    Act.Alike R (host.update op current operand) (host'.update op current operand) := by
  cases op with
  | assign => exact .done
  | increment | decrement => exact .andThen (toNumber hosts current) fun _ => .done
  | add => exact binary hosts .add current operand
  | subtract => exact binary hosts .subtract current operand
  | multiply => exact binary hosts .multiply current operand
  | divide => exact binary hosts .divide current operand
  | remainder => exact binary hosts .remainder current operand

end Host.Alike

end StepScript
