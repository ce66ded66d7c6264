import StepScript.Machine.Error
import StepScript.Machine.NodeMap
import StepScript.Value.Host

/-! Frames: the running units, calls and hooks.

A frame walks over the code of one unit or function body. `current` is the node
the next step works on, `previous` the one the last step worked on; from the two
a node tells whether it is entered or resumed. The values of finished nodes wait
in `memo` until their parents take them.
-/

set_option autoImplicit false

namespace StepScript

/-- What a frame was pushed for. -/
inductive FrameKind where
  /-- A unit; it gives the value of its last statement. -/
  | topLevel
  /-- A call; it gives `undefined` unless it returns something. -/
  | function
  /-- The hook that converts `operand` of the node below it. -/
  | conversion (operand : Nat) (wanted : Conversion)
  deriving Repr, DecidableEq

def FrameKind.description : FrameKind → String
  | topLevel => "top-level"
  | function => "function"
  | conversion _ wanted => "`" ++ wanted.hook ++ "` hook"

structure Frame where
  kind : FrameKind
  scope : Value
  code : Code
  current : Nat
  previous : Nat
  /-- Values of finished nodes that their parents have not taken. -/
  memo : NodeMap Value
  /-- What hooks made of operands; an assignment stands for its old value. -/
  converted : NodeMap Value

/-- How a node is met: for the first time, or after one of its children. -/
inductive Visit where
  | enter
  | resume (child : Nat)
  deriving Repr, DecidableEq

namespace Frame

def start (kind : FrameKind) (scope : Value) (code : Code) : Frame :=
  ⟨kind, scope, code, 0, 0, .empty, .empty⟩

/-- The value of a finished node; a missing one is `undefined`. -/
def peek (frame : Frame) (node : Nat) : Value :=
  (frame.memo.find? node).getD .undefined

def keep (frame : Frame) (node : Nat) (value : Value) : Frame :=
  { frame with memo := frame.memo.insert node value }

def discard (frame : Frame) (node : Nat) : Frame :=
  { frame with memo := frame.memo.erase node }

def discardConverted (frame : Frame) (node : Nat) : Frame :=
  { frame with converted := frame.converted.erase node }

/-- How `node` is met, from what the last step worked on. -/
def visit (frame : Frame) (node : Nat) : Except EvalError Visit :=
  if (match frame.code.parent node with
      | some parent => parent == frame.previous
      | none => frame.previous == node) then .ok .enter
  else if frame.code.parent frame.previous = some node then .ok (.resume frame.previous)
  else .error (.breach (.unrelated node frame.previous))

/-- How a node that may wait for a hook is met; `none` when the hook is done. -/
def visitFolding (frame : Frame) (node : Nat) : Except EvalError (Option Visit) :=
  if frame.previous = node ∧ (frame.code.parent node).isSome then .ok none
  else some <$> frame.visit node

end Frame

end StepScript
