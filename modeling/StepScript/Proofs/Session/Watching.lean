import StepScript.Host.Builtin
import StepScript.Proofs.Lockstep.Computations

/-! Watched calls of the ready-made functions.

A `Seat` says where the state of the ready-made functions is kept and what is noted of their
calls. In the plain seat there is nothing but the state, and its host is the usual one; the
watching seat also keeps a list of the calls, those that functions of the host make of each
other included. Hosts of two seats are alike if the few things the functions do to the state
keep the two sides related.
-/

set_option autoImplicit false

namespace StepScript

variable {σ τ α : Type}

structure HostCall where
  id : Nat
  builtin : Builtin
  args : List Value

def HostCall.asksForView (call : HostCall) : Bool :=
  match call.builtin, call.args with
  | .debug, [] => true
  | _, _ => false

namespace HostState

def counted (h : HostState) (id : Nat) (builtin : Builtin) (calls : Nat) : HostState :=
  { h with builtins := h.builtins.setIfInBounds id (builtin, calls) }

def withTrees (h : HostState) (on : Bool) : HostState :=
  { h with showsTrees := on }

def withWish (h : HostState) (wanted : Bool) : HostState :=
  { h with wantsDump := wanted }

end HostState

/-! ## Seats -/

/-- Where the state of the ready-made functions is kept, and how their calls are noted. -/
structure Seat (σ : Type) where
  state : σ → HostState
  update : (HostState → HostState) → σ → σ
  note : HostCall → σ → σ

namespace Seat

def plain : Seat HostState :=
  ⟨id, fun f => f, fun _ h => h⟩

def watching : Seat (HostState × List HostCall) :=
  ⟨Prod.fst, fun f (h, calls) => (f h, calls), fun call (h, calls) => (h, calls ++ [call])⟩

variable (seat : Seat σ)

def change (f : HostState → HostState) : Act σ Unit :=
  modify fun s => s.withHost (seat.update f s.host)

def count (id : Nat) (args : List Value) : Act σ (Builtin × Nat) := do
  let s ← get
  match (seat.state s.host).builtins[id]? with
  | some (builtin, calls) =>
    let host := seat.update (·.counted id builtin (calls + 1)) s.host
    set (s.withHost (seat.note ⟨id, builtin, args⟩ host))
    return (builtin, calls + 1)
  | none => throw (.host ("host function " ++ toString id ++ " is unknown"))

def run (host : Host σ) (builtin : Builtin) (calls : Nat) (args : List Value) : Act σ Value := do
  let first := args.head?.getD .undefined
  match builtin with
  | .constant value => return value
  | .fail message => throw (.host message)
  | .first => return first
  | .argumentCount => return .number (Float.ofNat args.length)
  | .callCount => return .number (Float.ofNat calls)
  | .toNumber => return .number (← host.toNumber first)
  | .toBoolean => return .boolean (← host.toBoolean first)
  | .apply => host.callValue first args.tail
  | .derive =>
    let (id, s) := (← get).newObject ⟨first, []⟩
    set s
    return .object id
  | .log =>
    let s ← get
    set (s.withHost (seat.update (·.print (.line (" ".intercalate (args.map s.text)))) s.host))
    return .undefined
  | .exit =>
    match args with
    | [] => throw (.exit 0)
    | code :: _ => throw (.exit (exitCode (← host.toNumber code)))
  | .debug =>
    match args with
    | [] => seat.change (·.withWish true)
    | flag :: _ =>
      let on ← host.toBoolean flag
      seat.change (·.withTrees on)
    return .undefined

def call : Nat → Nat → List Value → Act σ Value
  | 0, _, _ => throw .nestedTooDeep
  | limit + 1, id, args => do
    let (builtin, calls) ← seat.count id args
    seat.run ⟨call limit⟩ builtin calls args

def host : Host σ :=
  ⟨seat.call nestingLimit⟩

theorem plain_host : plain.host = Builtin.host := by
  have call (limit : Nat) : plain.call limit = Builtin.call limit := by
    induction limit with
    | zero => rfl
    | succ limit ih =>
      funext id args
      show (do
        let (builtin, calls) ← plain.count id args
        plain.run ⟨plain.call limit⟩ builtin calls args) = _
      rw [ih]
      have run : plain.run ⟨Builtin.call limit⟩ = Builtin.run ⟨Builtin.call limit⟩ := by
        funext builtin calls args
        cases builtin <;> rfl
      rw [run]
      rfl
  exact congrArg Host.mk (call nestingLimit)

/-! ## Seats in lockstep -/

/-- What keeps two seats related. -/
structure Match (seat : Seat σ) (seat' : Seat τ) (R : σ → τ → Prop) : Prop where
  builtins {h : σ} {h' : τ} (related : R h h') :
    (seat'.state h').builtins = (seat.state h).builtins
  counted {h : σ} {h' : τ} (related : R h h') (id : Nat) (builtin : Builtin) (calls : Nat) :
    R (seat.update (·.counted id builtin calls) h) (seat'.update (·.counted id builtin calls) h')
  printed {h : σ} {h' : τ} (related : R h h') (text : String) :
    R (seat.update (·.print (.line text)) h) (seat'.update (·.print (.line text)) h')
  trees {h : σ} {h' : τ} (related : R h h') (on : Bool) :
    R (seat.update (·.withTrees on) h) (seat'.update (·.withTrees on) h')
  noted {h : σ} {h' : τ} (related : R h h') {call : HostCall} (other : call.asksForView = false) :
    R (seat.note call h) (seat'.note call h')
  /-- A wish is noted first and then granted. -/
  asked {h : σ} {h' : τ} (related : R h h') {call : HostCall} (asks : call.asksForView = true) :
    R (seat.update (·.withWish true) (seat.note call h))
      (seat'.update (·.withWish true) (seat'.note call h'))

namespace Match

variable {seat : Seat σ} {seat' : Seat τ} {R : σ → τ → Prop} (alike : seat.Match seat' R)
include alike

theorem run {host : Host σ} {host' : Host τ} (hosts : host.Alike R host') {id : Nat}
    {builtin : Builtin} {args : List Value}
    (other : (HostCall.mk id builtin args).asksForView = false) (calls : Nat) :
    Act.Alike R (seat.run host builtin calls args) (seat'.run host' builtin calls args) := by
  cases builtin with
  | constant value => exact .done
  | fail message => exact .throw _
  | first | argumentCount | callCount => exact .done
  | toNumber => exact .andThen (hosts.toNumber _) fun _ => .done
  | toBoolean => exact .andThen (hosts.toBoolean _) fun _ => .done
  | apply => exact hosts.callValue _ _
  | derive =>
    refine .get fun s h related => ?_
    exact .andThen (.set (.withHost (s := (s.newObject _).2) related)) fun _ => .done
  | log =>
    refine .get fun s h related => ?_
    have texts : (s.withHost h).text = s.text := funext fun value => s.text_withHost h value
    rw [texts]
    have stores : (s.withHost (seat.update (·.print (.line (" ".intercalate (args.map s.text))))
        s.host)).Alike R (s.withHost (seat'.update (·.print (.line (" ".intercalate
          (args.map s.text)))) h)) :=
      .withHost (s := s.withHost _) (alike.printed related _)
    exact .andThen (.set stores) fun _ => .done
  | exit =>
    cases args with
    | nil => exact .throw _
    | cons code rest => exact .andThen (hosts.toNumber code) fun _ => .throw _
  | debug =>
    cases args with
    | nil => cases other
    | cons flag rest =>
      refine .andThen (hosts.toBoolean flag) fun on => .andThen (x := seat.change _)
        (y := seat'.change _) ?_ fun _ => .done
      intro s s' stores
      cases stores with
      | withHost related =>
        exact ⟨rfl, .withHost (s := s.withHost _) (alike.trees related on)⟩

theorem call (limit id : Nat) (args : List Value) :
    Act.Alike R (seat.call limit id args) (seat'.call limit id args) := by
  induction limit generalizing id args with
  | zero => exact .throw _
  | succ limit ih =>
    have hosts : Host.Alike R ⟨seat.call limit⟩ ⟨seat'.call limit⟩ := ih
    unfold Seat.call Seat.count
    simp only [bind_assoc]
    refine .get fun s h related => ?_
    rw [Store.withHost_host, alike.builtins related]
    cases found : (seat.state s.host).builtins[id]? with
    | none => exact .throw _
    | some entry =>
      obtain ⟨builtin, calls⟩ := entry
      have counted := alike.counted related id builtin (calls + 1)
      simp only [bind_assoc, pure_bind]
      cases asks : (HostCall.mk id builtin args).asksForView with
      | false =>
        refine .andThen (.set ?_) fun _ => run alike hosts asks (calls + 1)
        exact .withHost (s := s.withHost _) (alike.noted counted asks)
      | true =>
        -- Between the note and the wish the two sides need not be related.
        have granted := alike.asked counted asks
        unfold HostCall.asksForView at asks
        split at asks
        · rename_i which none
          cases which
          cases none
          exact fun _ _ _ => ⟨rfl, .withHost (s := s.withHost _) granted⟩
        · cases asks

/-- The functions of both hosts do the same. -/
theorem host_alike : seat.host.Alike R seat'.host :=
  fun id args => call alike nestingLimit id args

end Match

end Seat

/-! ## What the functions do to their state -/

def Print.isLine : Print → Bool
  | line _ => true
  | tree _ | dump _ => false

def HostState.quiet (h : HostState) : HostState :=
  { h with printed := h.printed.filter Print.isLine, wantsDump := false }

namespace Seat

theorem match_quiet (before : List HostCall) :
    watching.Match watching fun x y => y.1.quiet = x.1.quiet ∧ y.2 = before ++ x.2 where
  builtins related := (congrArg HostState.builtins related.1 :)
  counted related id builtin calls := ⟨congrArg (·.counted id builtin calls) related.1, related.2⟩
  printed related text := ⟨congrArg (·.print (.line text)) related.1, related.2⟩
  trees related on := ⟨congrArg (·.withTrees on) related.1, related.2⟩
  noted related call _ := ⟨related.1, by
    simp only [watching, related.2, List.append_assoc]⟩
  asked related call _ := ⟨related.1, by
    simp only [watching, related.2, List.append_assoc]⟩

/-- The watched state: a view is wanted if it was before or a call has asked for one, and only lines
have been printed. -/
structure Sees (wanted : Bool) (printed : List Print) (h : HostState)
    (x : HostState × List HostCall) : Prop where
  state : x.1 = h
  wish : h.wantsDump = (wanted || x.2.any HostCall.asksForView)
  lines : ∃ lines : List String, h.printed = lines.map Print.line ++ printed

theorem match_watching (wanted : Bool) (printed : List Print) :
    plain.Match watching (Sees wanted printed) where
  builtins related := (congrArg HostState.builtins related.state :)
  counted related id builtin calls :=
    ⟨congrArg (·.counted id builtin calls) related.state, related.wish, related.lines⟩
  printed related text := by
    obtain ⟨lines, shown⟩ := related.lines
    exact ⟨congrArg (·.print (.line text)) related.state, related.wish, text :: lines,
      congrArg (_ :: ·) shown⟩
  trees related on := ⟨congrArg (·.withTrees on) related.state, related.wish, related.lines⟩
  noted related call other := by
    refine ⟨related.state, ?_, related.lines⟩
    simp only [watching, List.any_append, List.any_cons, List.any_nil, other, Bool.or_false]
    exact related.wish
  asked related call asks := by
    refine ⟨congrArg (·.withWish true) related.state, ?_, related.lines⟩
    simp [watching, asks, plain, HostState.withWish]

end Seat

end StepScript
