import StepScript.Proofs.Value.References
import StepScript.Session

/-! The ready-made functions keep to objects that are there.

They change no prototype, and `derive` gives a new object the prototype it is asked
for. What they hold on to are the values of constant functions. The store that a
session starts with is made by the same steps, so chains end in it.
-/

set_option autoImplicit false

namespace StepScript

/-- A constant function gives the value. -/
def HostState.Holds (h : HostState) (value : Value) : Prop :=
  ∃ function ∈ h.builtins, function.1 = .constant value

variable {base s : HostStore} {n : Nat}

theorem Store.Follows.addBuiltin (follows : Follows HostState.Holds base n s) (name : String)
    {builtin : Builtin} (constant : ∀ value, builtin = .constant value → value.Within n) :
    Follows HostState.Holds base n (s.addBuiltin name builtin).2 := by
  refine (follows.newNative name).withHost ?_
  rintro value ⟨function, member, gives⟩
  rcases Array.mem_push.mp member with old | rfl
  · exact follows.size ▸ follows.closed.host value ⟨function, old, gives⟩
  · exact constant value gives

theorem Store.Follows.provide (follows : Follows HostState.Holds base n s) (id : Nat)
    (name : String) (builtin : Builtin)
    (constant : ∀ value, builtin = .constant value → value.Within n) :
    Follows HostState.Holds base n
      ((s.addBuiltin name builtin).2.insert id name (s.addBuiltin name builtin).1) :=
  (follows.addBuiltin name constant).insert id name trivial

namespace Builtin

theorem stays_count (id : Nat) :
    Stays (Store.Follows HostState.Holds base) n (count id) fun counted =>
      ∀ value, counted.1 = .constant value → value.Within n := by
  refine .bind .get fun s follows => ?_
  have held (value : Value) (holds : s.host.Holds value) : value.Within n :=
    follows.size ▸ follows.closed.host value holds
  split
  case h_1 builtin calls found =>
    have here := Array.mem_of_getElem? found
    have kept : Store.Follows HostState.Holds base n { s with host := { s.host with
        builtins := s.host.builtins.setIfInBounds id (builtin, calls + 1) } } := by
      refine follows.withHost ?_
      rintro value ⟨function, member, gives⟩
      rcases Array.mem_or_eq_of_mem_setIfInBounds member with old | rfl
      · exact held value ⟨function, old, gives⟩
      · exact held value ⟨_, here, gives⟩
    refine .bind ((Leads.set (Nat.le_refl n) kept).mono fun _ _ _ same => ⟨same, trivial⟩)
      fun _ (_ : True) => .pure fun value gives => ?_
    exact held value ⟨_, here, gives⟩
  case h_2 => exact .throw _

theorem follows_of_builtins (follows : Store.Follows HostState.Holds base n s) {h : HostState}
    (same : h.builtins = s.host.builtins) :
    Store.Follows HostState.Holds base n { s with host := h } := by
  refine follows.withHost ?_
  rintro value ⟨function, member, gives⟩
  exact follows.size ▸ follows.closed.host value ⟨function, same ▸ member, gives⟩

theorem leads_run {host : Host HostState} (faithful : host.Faithful HostState.Holds)
    (builtin : Builtin) (calls : Nat) {args : List Value}
    (constant : ∀ value, builtin = .constant value → value.Within n)
    (given : ∀ arg ∈ args, arg.Within n) :
    Leads (Store.Follows HostState.Holds base) n (run host builtin calls args) fun m value =>
      value.Within m := by
  have hooks := faithful.hooks base
  have first := within_head given
  cases builtin with
  | constant value => exact .pure (constant value rfl)
  | fail message => exact .throw _
  | first => exact .pure first
  | argumentCount | callCount => exact .pure trivial
  | toNumber => exact .bind (Host.leads_toNumber hooks _) fun _ _ _ _ => .pure trivial
  | toBoolean => exact .bind (Host.leads_toBoolean hooks _) fun _ _ _ _ => .pure trivial
  | apply =>
    -- The call goes to the host that stands in for functions called by functions.
    have others : ∀ arg ∈ args.tail, arg.Within n :=
      fun arg member => given arg (List.mem_of_mem_tail member)
    exact Host.leads_callValue (fun f => faithful.call f others) _
  | derive =>
    refine .after .get fun s follows => ?_
    have derived : Object.Within n ⟨args.head?.getD .undefined, []⟩ :=
      ⟨first, List.forall_mem_nil _⟩
    refine .bind (.set (Nat.le_succ n) (follows.newObject derived)) ?_
    rintro m - - rfl
    exact .pure follows.size_lt
  | log =>
    refine .after .get fun s follows => ?_
    exact .bind (.set (Nat.le_refl n) (follows_of_builtins follows rfl))
      fun _ _ _ _ => .pure trivial
  | exit =>
    cases args with
    | nil => exact .throw _
    | cons code rest => exact .bind (Host.leads_toNumber hooks code) fun _ _ _ _ => .throw _
  | debug =>
    cases args with
    | nil =>
      exact .after (.modify fun s follows => follows_of_builtins follows rfl)
        fun _ _ => .pure trivial
    | cons flag rest =>
      refine .bind (Host.leads_toBoolean hooks flag) fun m _ on _ => ?_
      exact .after (.modify fun s follows => follows_of_builtins follows rfl)
        fun _ _ => .pure trivial

theorem faithful_call (limit : Nat) : Host.Faithful HostState.Holds ⟨call limit⟩ := by
  induction limit with
  | zero => exact .of_leads fun _ _ _ _ _ => .throw _
  -- A function runs the functions that it calls with one call less.
  | succ limit ih =>
    refine .of_leads fun base n f args given => ?_
    exact .after (stays_count f) fun counted constant => leads_run ih _ _ constant given

/-- The ready-made functions are faithful. -/
theorem faithful_host : Host.Faithful HostState.Holds host :=
  faithful_call nestingLimit

end Builtin

namespace Session

theorem follows_install {global : Nat} (follows : Store.Follows HostState.Holds base n s) :
    Store.Follows HostState.Holds base (n + 1) (install s global) := by
  have empty : Object.Within n ⟨.null, []⟩ := ⟨trivial, List.forall_mem_nil _⟩
  have console : Value.Within (n + 1) (.object s.objects.size) := follows.size_lt
  have logs := (follows.newObject empty).provide s.objects.size "log" .log nofun
  have shown := logs.insert global "console" console
  exact (shown.provide global "exit" .exit nofun).provide global "debug" .debug nofun

theorem follows_start :
    Store.Follows HostState.Holds (.empty .empty) 2 start.machine.store := by
  have empty : (Store.empty HostState.empty).Closed HostState.Holds := by
    refine ⟨nofun, nofun, ?_⟩
    rintro value ⟨function, member, -⟩
    exact absurd member (Array.not_mem_empty function)
  have scope : Object.Within 0 ⟨.null, []⟩ := ⟨trivial, List.forall_mem_nil _⟩
  exact follows_install ((Store.Follows.refl empty).newObject scope)

theorem ends_start (id : Nat) : start.machine.store.Ends id := by
  refine follows_start.develops.ends (fun _ _ above => ?_) (fun _ inside => ?_) id
  · cases above
  · cases inside

end Session

end StepScript
