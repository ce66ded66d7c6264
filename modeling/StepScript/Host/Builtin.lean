import StepScript.Value.Host

/-! Ready-made host functions.

They share a state: how often each has been called, what has been printed, and
two wishes of the program, to see the tree of every unit and to see the machine.
-/

set_option autoImplicit false

namespace StepScript

/-- Something printed on the console: a line, the tree of a unit, or a view of the
machine. -/
inductive Print where
  | line (text : String)
  | tree (text : String)
  | dump (text : String)
  deriving Repr, DecidableEq

def Print.text : Print → String
  | line text => text ++ "\n"
  | tree text => text
  | dump text => text

inductive Builtin where
  /-- Gives a fixed value. -/
  | constant (value : Value)
  /-- Fails with a message. -/
  | fail (message : String)
  /-- Gives its first argument. -/
  | first
  /-- Gives the number of its arguments. -/
  | argumentCount
  /-- Gives the number of its calls so far, this one included. -/
  | callCount
  /-- Converts its first argument to a number. -/
  | toNumber
  /-- Converts its first argument to a truth value. -/
  | toBoolean
  /-- Calls its first argument with the other ones. -/
  | apply
  /-- Makes an object whose prototype is its first argument. -/
  | derive
  /-- Prints its arguments with blanks between them. -/
  | log
  /-- Ends the process; the code is its first argument, or zero. -/
  | exit
  /-- With an argument says whether trees are shown, without one asks for a view of
  the machine. -/
  | debug
  deriving Repr

structure HostState where
  /-- The functions and the number of their calls, by number. -/
  builtins : Array (Builtin × Nat)
  /-- What has been printed, the latest first. -/
  printed : List Print
  showsTrees : Bool
  wantsDump : Bool

namespace HostState

def empty : HostState :=
  ⟨#[], [], false, false⟩

def print (h : HostState) (p : Print) : HostState :=
  { h with printed := p :: h.printed }

end HostState

abbrev HostStore := Store HostState

namespace Store

def addBuiltin (s : HostStore) (name : String) (builtin : Builtin) : Value × HostStore :=
  let (id, s) := s.newNative name
  let host := { s.host with builtins := s.host.builtins.push (builtin, 0) }
  (.function (.native id), { s with host := host })

def print (s : HostStore) (p : Print) : HostStore :=
  { s with host := s.host.print p }

end Store

/-- The exit code that a number asks for: its integer part within 32 bits, and 1
if it has none. -/
def exitCode (x : Float) : Int :=
  match Number.truncate? x with
  | some whole => max (-2147483648) (min whole 2147483647)
  | none => 1

namespace Builtin

def count (id : Nat) : Act HostState (Builtin × Nat) := do
  let s ← get
  match s.host.builtins[id]? with
  | some (builtin, calls) =>
    let builtins := s.host.builtins.setIfInBounds id (builtin, calls + 1)
    set { s with host := { s.host with builtins := builtins } }
    return (builtin, calls + 1)
  | none => throw (.host ("host function " ++ toString id ++ " is unknown"))

def run (host : Host HostState) (builtin : Builtin) (calls : Nat) (args : List Value) :
    Act HostState Value := do
  let first := args.head?.getD .undefined
  match builtin with
  | .constant value => return value
  | .fail message => throw (.host message)
  | .first => return first
  | .argumentCount => return .number (Float.ofNat args.length)
  | .callCount => return .number (Float.ofNat calls)
  | .toNumber => return .number (← host.toNumber first)
  | .toBoolean => return .boolean (← host.toBoolean first)
  | .apply => host.callValue first args.tail
  | .derive =>
    let (id, s) := (← get).newObject ⟨first, []⟩
    set s
    return .object id
  | .log =>
    let s ← get
    set (s.print (.line (" ".intercalate (args.map s.text))))
    return .undefined
  | .exit =>
    match args with
    | [] => throw (.exit 0)
    | code :: _ => throw (.exit (exitCode (← host.toNumber code)))
  | .debug =>
    match args with
    | [] => modify fun s => { s with host := { s.host with wantsDump := true } }
    | flag :: _ =>
      let on ← host.toBoolean flag
      modify fun s => { s with host := { s.host with showsTrees := on } }
    return .undefined

/-- Calls function `id`, with at most `limit` calls inside each other. -/
def call : Nat → Nat → List Value → Act HostState Value
  | 0, _, _ => throw .nestedTooDeep
  | limit + 1, id, args => do
    let (builtin, calls) ← count id
    run ⟨call limit⟩ builtin calls args

def host : Host HostState :=
  ⟨call nestingLimit⟩

end Builtin

end StepScript
