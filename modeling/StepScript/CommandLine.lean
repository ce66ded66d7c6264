import StepScript.Folder
import StepScript.Prompt

/-! The command line.

Arguments choose between the usage text, running a file, and the prompt loop.
Everything is a function of the arguments, the standard input and the files.
-/

set_option autoImplicit false

namespace StepScript.CommandLine

inductive Plan where
  /-- Show the usage text. -/
  | usage
  /-- Refuse the arguments because of this mistake. -/
  | refuse (mistake : String)
  /-- Run the file at `path`, or the prompt loop without one. -/
  | start (showTrees : Bool) (path : Option String)
  deriving Repr, DecidableEq

/-- Reads arguments from left to right; the first one that decides ends it. -/
def readArgs (showTrees : Bool) (path : Option String) : List String → Plan
  | [] => .start showTrees path
  | arg :: rest =>
    if arg = "--help" ∨ arg = "-h" then .usage
    else if arg = "--debug-tree" then readArgs true path rest
    else if arg.startsWith "-" then .refuse ("unknown option `" ++ arg ++ "`")
    else match path with
      | none => readArgs showTrees (some arg) rest
      | some _ => .refuse ("unexpected argument `" ++ arg ++ "`")

def plan (args : List String) : Plan :=
  readArgs false none args

def usage : String :=
  "Kiln interpreter\n\n" ++
  "Usage: kiln [--debug-tree] [FILE]\n\n" ++
  "Runs FILE as one translation unit and prints its value.\n" ++
  "Without FILE, starts a read-eval-print loop on stdin.\n\n" ++
  "Options:\n" ++
  "  --debug-tree   Print the parse tree of every unit before running it\n" ++
  "  -h, --help     Show this message\n\n" ++
  "Set RUST_LOG (e.g. RUST_LOG=kiln_eval=trace) to trace evaluation.\n"

structure Outcome where
  status : Nat
  stdout : String
  stderr : String
  deriving Repr, DecidableEq

def statusOf (code : Int) : Nat :=
  (code % 256).toNat

def notText : String := "stream did not contain valid UTF-8"

def session (showTrees : Bool) : Session :=
  Session.start.showTrees showTrees

def runFile (fuel : Nat) (showTrees : Bool) (path : String) (file : File) : Option Outcome :=
  let text : Except String String := match file with
    | .error e => .error e.reason
    | .ok bytes => match Prompt.decode bytes with
      | some text => .ok text
      | none => .error notText
  match text with
  | .error reason => some ⟨1, "", Report.render (.unreadable path reason) path ""⟩
  | .ok source =>
    ((session showTrees).run fuel source).map fun (result, session) =>
      let (printed, session) := session.takePrinted
      let stdout := String.join (printed.map (·.text))
      match result with
      | .ok value => ⟨0, stdout ++ session.text value ++ "\n", ""⟩
      | .error (.eval (.exited code)) => ⟨statusOf code, stdout, ""⟩
      | .error e => ⟨1, stdout, Report.render e path source⟩

/-- The status and the complaint that an ending of the prompt loop leads to. -/
def endingStatus : Prompt.Ending → Nat × String
  | .finished => (0, "")
  | .notText => (1, "error: " ++ notText ++ "\n")
  | .exited code => (statusOf code, "")

def runPrompt (fuel : Nat) (showTrees : Bool) (stdin : List UInt8) : Option Outcome :=
  (Prompt.run fuel (session showTrees) (Prompt.inputLines stdin)).map fun (outputs, ending) =>
    let (status, complaint) := endingStatus ending
    ⟨status, String.join (outputs.map (·.text)), complaint⟩

def refusal (mistake : String) : Outcome :=
  ⟨2, "", "error: " ++ mistake ++ "\n" ++ usage⟩

/-- The whole program, started in `folder`. -/
def run (fuel : Nat) (args : List String) (stdin : List UInt8) (folder : Folder) :
    Option Outcome :=
  match plan args with
  | .usage => some ⟨0, "", usage⟩
  | .refuse mistake => some (refusal mistake)
  | .start showTrees (some path) => runFile fuel showTrees path (folder.read path)
  | .start showTrees none => runPrompt fuel showTrees stdin

end StepScript.CommandLine
