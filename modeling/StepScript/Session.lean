import StepScript.Grammar.Rules
import StepScript.Host.Builtin
import StepScript.Machine.Text

/-! Sessions: a machine with a console.

A session runs units of source text one after the other. Its global scope has
`console.log`, `exit` and `debug`.
-/

set_option autoImplicit false

namespace StepScript

inductive RunError where
  | parse (e : ParseError)
  | eval (e : EvalError)
  | unreadable (path reason : String)
  deriving Repr, DecidableEq

def RunError.message : RunError → String
  | parse e => e.message
  | eval e => e.message
  | unreadable path reason => "cannot read `" ++ path ++ "`: " ++ reason

structure Session where
  machine : Machine HostState

namespace Session

def install (s : HostStore) (global : Nat) : HostStore :=
  let (console, s) := s.newObject ⟨.null, []⟩
  let (log, s) := s.addBuiltin "log" .log
  let s := (s.insert console "log" log).insert global "console" (.object console)
  let (exit, s) := s.addBuiltin "exit" .exit
  let s := s.insert global "exit" exit
  let (debug, s) := s.addBuiltin "debug" .debug
  s.insert global "debug" debug

def start : Session :=
  let (global, s) := (Store.empty HostState.empty).newObject ⟨.null, []⟩
  ⟨.start (install s global) (.object global) Machine.defaultDepthLimit⟩

def modifyHost (session : Session) (f : HostState → HostState) : Session :=
  let store := session.machine.store
  ⟨{ session.machine with store := { store with host := f store.host } }⟩

def showTrees (session : Session) (on : Bool) : Session :=
  session.modifyHost fun h => { h with showsTrees := on }

def print (session : Session) (p : Print) : Session :=
  session.modifyHost (·.print p)

/-- Takes what has been printed, the oldest first. -/
def takePrinted (session : Session) : List Print × Session :=
  (session.machine.store.host.printed.reverse,
    session.modifyHost fun h => { h with printed := [] })

def printDump (session : Session) : Session :=
  if session.machine.store.host.wantsDump then
    let session := session.modifyHost fun h => { h with wantsDump := false }
    session.print (.dump session.machine.text)
  else session

/-- Runs until nothing runs or waits, in at most `fuel` steps. The value is that
of the last unit that ended, `value` if none did. -/
def drive : Nat → Value → Session → Option (Except EvalError Value × Session)
  | fuel, value, session =>
    if session.machine.isIdle then some (.ok value, session)
    else match fuel with
      | 0 => none
      | fuel + 1 =>
        match session.machine.step Builtin.host with
        | (.error e, machine) => some (.error e, ⟨machine⟩)
        | (.ok record, machine) =>
          let session := printDump ⟨machine⟩
          match record with
          | .returned result =>
            drive fuel (if machine.depth = 0 then result else value) session
          | .normal _ => drive fuel value session

def run (fuel : Nat) (session : Session) (source : String) :
    Option (Except RunError Value × Session) :=
  match parse source with
  | .error e => some (.error (.parse e), session)
  | .ok code =>
    let session :=
      if session.machine.store.host.showsTrees then
        session.print (.tree (session.machine.store.codeText code))
      else session
    (drive fuel .undefined ⟨session.machine.feed code⟩).map fun (result, session) =>
      (result.mapError .eval, session)

def text (session : Session) (value : Value) : String :=
  session.machine.store.text value

end Session

end StepScript
