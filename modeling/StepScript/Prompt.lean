import StepScript.Report.Draw

/-! The prompt loop: every line of input is a unit.

The loop's own output and what the units print on the console are kept apart but
in order. White lines are skipped. A line that is no text ends the loop.
-/

set_option autoImplicit false

namespace StepScript.Prompt

def sign : String := "kiln> "

def unitName : String := "<repl>"

inductive Output where
  | out (text : String)
  | console (p : Print)
  deriving Repr, DecidableEq

def Output.text : Output → String
  | out text => text
  | console p => p.text

inductive Ending where
  | finished
  | notText
  | exited (code : Int)
  deriving Repr, DecidableEq

/-- What running a line led to: its outputs, and the session to go on with unless
the unit asked for the end. -/
structure Reply where
  outputs : List Output
  next : Except Int Session

def runLine (fuel : Nat) (session : Session) (line : String) : Option Reply :=
  if line.toList.all Text.isBlank then some ⟨[.out sign], .ok session⟩
  else
    (session.run fuel line).map fun (result, session) =>
      let (printed, session) := session.takePrinted
      let printed := printed.map .console
      match result with
      | .ok value => ⟨printed ++ [.out (session.text value ++ "\n"), .out sign], .ok session⟩
      | .error (.eval (.exited code)) => ⟨printed, .error code⟩
      | .error e => ⟨printed ++ [.out (Report.render e unitName line), .out sign], .ok session⟩

/-- Runs lines until the end of the input; a line that is `none` is no text. -/
def runLines (fuel : Nat) (session : Session) :
    List (Option String) → Option (List Output × Ending)
  | [] => some ([.out "\n"], .finished)
  | none :: _ => some ([], .notText)
  | some line :: rest => do
    let reply ← runLine fuel session line
    match reply.next with
    | .error code => some (reply.outputs, .exited code)
    | .ok session =>
      let (outputs, ending) ← runLines fuel session rest
      some (reply.outputs ++ outputs, ending)

def run (fuel : Nat) (session : Session) (lines : List (Option String)) :
    Option (List Output × Ending) :=
  (runLines fuel session lines).map fun (outputs, ending) => (.out sign :: outputs, ending)

def decode (bytes : List UInt8) : Option String :=
  String.fromUTF8? ⟨bytes.toArray⟩

/-- The lines of an input, of which `reversed` has been read since the last line
feed. The line feed and a carriage return in front of it are left out. -/
def linesFrom (reversed : List UInt8) : List UInt8 → List (List UInt8)
  | [] => if reversed.isEmpty then [] else [reversed.reverse]
  | byte :: rest =>
    if byte = 10 then
      let line := match reversed with
        | 13 :: before => before
        | all => all
      line.reverse :: linesFrom [] rest
    else linesFrom (byte :: reversed) rest

def inputLines (bytes : List UInt8) : List (Option String) :=
  (linesFrom [] bytes).map decode

end StepScript.Prompt
