import StepScript.Outline.Basic

/-! Edits of outlines.

Every edit checks its arguments first; an edit that fails gives an error and no
outline, so the caller keeps the one it had. An edit that succeeds gives the
changed outline together with the position its result is found at.
-/

set_option autoImplicit false

namespace StepScript

inductive OutlineError where
  | outOfRange (node size : Nat)
  | rootRefused (edit : String)
  | notInside (target source : Nat)
  | tooLarge (limit : Nat)
  deriving Repr, DecidableEq

def OutlineError.message : OutlineError → String
  | outOfRange node size =>
    "node " ++ toString node ++ " is out of range for a tree of " ++ toString size ++ " nodes"
  | rootRefused edit => "`" ++ edit ++ "` cannot be applied to the root node"
  | notInside target source =>
    "node " ++ toString source ++ " is not a descendant of node " ++ toString target
  | tooLarge limit => "tree cannot grow past " ++ toString limit ++ " nodes"

namespace Outline

variable {α : Type}

def capacity : Nat := 4294967295

def checkNode (t : Outline α) (node : Nat) : Except OutlineError Unit :=
  if node < t.size then .ok () else .error (.outOfRange node t.size)

def checkRoom (t : Outline α) (additional : Nat) : Except OutlineError Unit :=
  if t.size + additional > capacity then .error (.tooLarge capacity) else .ok ()

def shift (entries : List (Entry α)) (node : Nat) (amount : Int) : List (Entry α) :=
  entries.modify node fun entry => { entry with weight := entry.weight + amount }

def reweigh (entries : List (Entry α)) (node : Nat) (weight : Int) : List (Entry α) :=
  entries.modify node fun entry => { entry with weight := weight }

def splice (entries : List (Entry α)) (node : Nat) (inserted : List (Entry α)) :
    List (Entry α) :=
  entries.take node ++ inserted ++ entries.drop node

def cut (entries : List (Entry α)) (start stop : Nat) : List (Entry α) :=
  entries.take start ++ entries.drop stop

def prepend (t : Outline α) (parent : Nat) (value : α) :
    Except OutlineError (Outline α × Nat) := do
  t.checkNode parent
  t.checkRoom 1
  let below := t.weight parent - 1
  .ok (⟨splice (reweigh t.entries parent 1) (parent + 1) [⟨below, value⟩]⟩, parent + 1)

def append (t : Outline α) (parent : Nat) (value : α) :
    Except OutlineError (Outline α × Nat) := do
  t.checkNode parent
  t.checkRoom 1
  if t.isLeaf parent then
    let below := t.weight parent - 1
    .ok (⟨splice (reweigh t.entries parent 1) (parent + 1) [⟨below, value⟩]⟩, parent + 1)
  else
    let (stop, total) := t.span parent
    .ok (⟨splice (shift t.entries (stop - 1) (1 - total)) stop [⟨total - 1, value⟩]⟩, stop)

/-- Puts a whole outline as the last child of `parent`; gives the position of
its root. -/
def graft (t : Outline α) (parent : Nat) (scion : Outline α) :
    Except OutlineError (Outline α × Nat) := do
  t.checkNode parent
  t.checkRoom scion.size
  if t.isLeaf parent then
    let scion := shift scion.entries (scion.size - 1) (t.weight parent)
    .ok (⟨splice (reweigh t.entries parent 1) (parent + 1) scion⟩, parent + 1)
  else
    let (stop, total) := t.span parent
    let scion := shift scion.entries (scion.size - 1) total
    .ok (⟨splice (shift t.entries (stop - 1) (1 - total)) stop scion⟩, stop)

def subtree (t : Outline α) (node : Nat) : Outline α :=
  let (stop, total) := t.span node
  let entries := (t.entries.drop node).take (stop - node)
  ⟨shift entries (entries.length - 1) (-(total + 1))⟩

def graftCopy (t : Outline α) (parent : Nat) (source : Outline α) (node : Nat) :
    Except OutlineError (Outline α × Nat) := do
  source.checkNode node
  t.graft parent (source.subtree node)

def clearChildren (t : Outline α) (node : Nat) : Except OutlineError (Outline α) := do
  t.checkNode node
  let (stop, total) := t.span node
  .ok ⟨reweigh (cut t.entries (node + 1) stop) node total⟩

/-- Removes `node` and everything below it; gives the position that now holds
what followed. -/
def remove (t : Outline α) (node : Nat) : Except OutlineError (Outline α × Nat) := do
  t.checkNode node
  if node = 0 then
    .error (.rootRefused "remove")
  else
    let (stop, total) := t.span node
    .ok (⟨shift (cut t.entries node stop) (node - 1) total⟩, node)

/-- Removes `node` alone; its children take its place. -/
def dissolve (t : Outline α) (node : Nat) : Except OutlineError (Outline α × Nat) := do
  t.checkNode node
  if node = 0 then
    .error (.rootRefused "skip_remove")
  else if t.isLeaf node then
    t.remove node
  else
    .ok (⟨cut (shift t.entries (t.stop node - 1) 1) node (node + 1)⟩, node)

/-- Puts the subtree at `source`, which lies strictly inside that at `target`,
in place of the latter. -/
def prune (t : Outline α) (target source : Nat) : Except OutlineError (Outline α × Nat) := do
  t.checkNode target
  t.checkNode source
  let (targetStop, targetTotal) := t.span target
  if target < source ∧ source < targetStop then
    let (sourceStop, sourceTotal) := t.span source
    let kept := cut (cut t.entries sourceStop targetStop) target source
    let last := target + (sourceStop - source) - 1
    .ok (⟨shift kept last (targetTotal - sourceTotal)⟩, target)
  else
    .error (.notInside target source)

/-- Puts a new node in the place of `node`, with the subtree at `node` as its
only child. -/
def wrap (t : Outline α) (node : Nat) (value : α) : Except OutlineError (Outline α × Nat) := do
  t.checkNode node
  t.checkRoom 1
  .ok (⟨splice (shift t.entries (t.stop node - 1) (-1)) node [⟨1, value⟩]⟩, node)

def set? (t : Outline α) (node : Nat) (value : α) : Option (Outline α) :=
  if node < t.size then
    some ⟨t.entries.modify node fun entry => { entry with value := value }⟩
  else none

end Outline

end StepScript
