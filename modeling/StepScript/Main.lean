import StepScript.CommandLine

/-! The program on the terminal: reads arguments, files and lines, and prints what
the library answers. -/

set_option autoImplicit false

namespace StepScript.Main

open CommandLine

/-- Steps are not limited in practice. -/
def fuel : Nat := 1000000000000000

/-- Whether `code` stands for the system error `number`; codes come with either
sign. -/
def isCode (code number : UInt32) : Bool :=
  code == number || code == -number

def fileError : IO.Error → FileError
  | .noFileOrDirectory .. => .missing
  | .inappropriateType _ code _ => if isCode code 20 then .notADirectory else .directory
  | .permissionDenied .. => .other "Permission denied (os error 13)"
  | e@(.invalidArgument _ code _) =>
    if isCode code 36 then .nameTooLong else .other (toString e)
  | e => .other (toString e)

def readFile (path : String) : IO File := do
  try
    let bytes ← IO.FS.readBinFile path
    return .ok bytes.toList
  catch e => return .error (fileError e)

def finish (outcome : Option Outcome) : IO UInt32 := do
  match outcome with
  | some ⟨status, stdout, stderr⟩ =>
    IO.print stdout
    IO.eprint stderr
    return status.toUInt32
  | none => return 1

def printOutputs (outputs : List Prompt.Output) : IO Unit := do
  for output in outputs do
    IO.print output.text
  (← IO.getStdout).flush

partial def readLine (input : IO.FS.Stream) (line : ByteArray) : IO ByteArray := do
  let bytes ← input.read 1
  if bytes.isEmpty then return line
  else
    let line := line ++ bytes
    if bytes.toList = [10] then return line else readLine input line

partial def answerLines (input : IO.FS.Stream) (session : Session) : IO UInt32 := do
  let line ← readLine input .empty
  if line.isEmpty then
    IO.print "\n"
    return 0
  else
    match Prompt.inputLines line.toList with
    | some text :: _ =>
      match Prompt.runLine fuel session text with
      | some ⟨outputs, next⟩ =>
        printOutputs outputs
        match next with
        | .ok session => answerLines input session
        | .error code => return (statusOf code).toUInt32
      | none => return 1
    | _ =>
      let (status, complaint) := endingStatus .notText
      IO.eprint complaint
      return status.toUInt32

end StepScript.Main

open StepScript StepScript.CommandLine in
def main (args : List String) : IO UInt32 := do
  match plan args with
  | .usage => Main.finish (some ⟨0, "", usage⟩)
  | .refuse mistake => Main.finish (some (refusal mistake))
  | .start showTrees (some path) =>
    Main.finish (runFile Main.fuel showTrees path (← Main.readFile path))
  | .start showTrees none =>
    Main.printOutputs [.out Prompt.sign]
    Main.answerLines (← IO.getStdin) (session showTrees)
