import StepScript.Machine.Step

/-! The machine as text. -/

set_option autoImplicit false

namespace StepScript

variable {σ : Type}

def Store.codeText (s : Store σ) (code : Code) : String :=
  code.display s.nodeText

def Frame.text (frame : Frame) (s : Store σ) : String :=
  frame.kind.description ++ " context at node " ++ toString frame.current ++
    " (previous " ++ toString frame.previous ++ ")\n" ++
    s.codeText frame.code ++
    "environment: " ++ s.text frame.scope ++ "\n" ++
    String.join (frame.memo.entries.map fun (node, value) =>
      "  [" ++ toString node ++ "] " ++ s.shown value ++ "\n") ++
    String.join (frame.converted.entries.map fun (node, value) =>
      "  [" ++ toString node ++ "] converted " ++ s.shown value ++ "\n")

/-- The frames as text, each with its depth, counted from `depth`. -/
def framesText (s : Store σ) : Nat → List Frame → List String
  | _, [] => []
  | depth, frame :: above =>
    ("#" ++ toString depth ++ " " ++ frame.text s) :: framesText s (depth + 1) above

def Machine.text (m : Machine σ) : String :=
  "queued units: " ++ toString m.pending.length ++ "\n" ++
    String.join (framesText m.store 0 m.stack.reverse) ++
    "global environment: " ++ m.store.text m.global ++ "\n"

end StepScript
