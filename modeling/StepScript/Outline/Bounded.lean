import StepScript.Outline.Edit

/-! Outlines whose weights have 32 bits.

These functions do what those of `Outline` do, but every weight and every sum on
the way has to fit into 32 bits with a sign. `none` says that one does not.
-/

set_option autoImplicit false

namespace StepScript.Outline

variable {α β : Type}

def Fits (x : Int) : Prop :=
  -2147483648 ≤ x ∧ x ≤ 2147483647

instance (x : Int) : Decidable (Fits x) :=
  inferInstanceAs (Decidable (_ ∧ _))

namespace Bounded

/-- The number, if it fits. -/
def fit (x : Int) : Option Int :=
  if Fits x then some x else none

/-! ## Forward sums -/

def extent : List (Entry α) → Int → Option (Nat × Int)
  | [], sum => some (0, sum)
  | entry :: rest, sum =>
    (fit (sum + entry.weight)).bind fun sum =>
      if sum ≤ 0 then some (1, sum)
      else (extent rest sum).map fun (count, total) => (count + 1, total)

def span (t : Outline α) (node : Nat) : Option (Nat × Int) :=
  (extent (t.entries.drop node) 0).map fun (count, total) => (node + count, total)

def stop (t : Outline α) (node : Nat) : Option Nat :=
  (span t node).map (·.1)

def deepWeight (t : Outline α) (node : Nat) : Option Int :=
  (span t node).map (·.2)

def deepSize (t : Outline α) (node : Nat) : Option Nat :=
  (stop t node).map (· - node)

def nextSibling (t : Outline α) (node : Nat) : Option (Option Nat) :=
  (span t node).map fun (stop, total) => if stop < t.size ∧ total = 0 then some stop else none

def siblingsFrom (t : Outline α) : Nat → Nat → Option (List Nat)
  | 0, _ => some []
  | limit + 1, node =>
    (nextSibling t node).bind fun
      | some next => (siblingsFrom t limit next).map (node :: ·)
      | none => some [node]

def children (t : Outline α) (node : Nat) : Option (List Nat) :=
  match t.firstChild node with
  | some first => siblingsFrom t t.size first
  | none => some []

def childCount (t : Outline α) (node : Nat) : Option Nat :=
  (children t node).map (·.length)

/-- The node at `position` among `node` and its following siblings. A node is passed on once the
one behind it has been looked up, so nothing is summed past that one. -/
def siblingAt (t : Outline α) : Nat → Option Nat → Option (Option Nat)
  | _, none => some none
  | 0, some node => (nextSibling t node).map fun _ => some node
  | position + 1, some node => (nextSibling t node).bind (siblingAt t position)

def child (t : Outline α) (node position : Nat) : Option (Option Nat) :=
  siblingAt t position (t.firstChild node)

def lastChild (t : Outline α) (node : Nat) : Option (Option Nat) :=
  (children t node).map (·.getLast?)

def contains (t : Outline α) (ancestor node : Nat) : Option Bool :=
  if ancestor ≤ node then (stop t ancestor).map fun stop => node < stop else some false

/-! ## Backward sums -/

def parentAmong : List (Entry α) → Int → Option (Option Nat)
  | [], _ => some none
  | entry :: before, sum =>
    (fit (sum + entry.weight)).bind fun sum =>
      if sum > 0 then some (some before.length) else parentAmong before sum

def siblingAmong : List (Entry α) → Int → Option (Option Nat)
  | [], _ => some none
  | entry :: before, sum =>
    (fit (sum + entry.weight)).bind fun sum =>
      if sum = 0 then some (some before.length)
      else if sum > 0 then some none
      else siblingAmong before sum

def parent (t : Outline α) (node : Nat) : Option (Option Nat) :=
  parentAmong (t.entries.take node).reverse 0

def prevSibling (t : Outline α) (node : Nat) : Option (Option Nat) :=
  siblingAmong (t.entries.take node).reverse 0

def totalWeight : List (Entry α) → Int → Option Int
  | [], sum => some sum
  | entry :: rest, sum => (fit (sum + entry.weight)).bind (totalWeight rest)

def depth (t : Outline α) (node : Nat) : Option Nat :=
  (totalWeight (t.entries.take node) 0).map (·.toNat)

/-! ## Shape check -/

def finishes : List (Entry α) → Int → Option Bool
  | [], depth => some (depth == -1)
  | entry :: rest, depth =>
    if 1 ≤ depth && entry.weight ≤ 1 then (fit (depth + entry.weight)).bind (finishes rest)
    else some false

def isWellFormed (t : Outline α) : Option Bool :=
  match t.entries with
  | [] => some false
  | root :: rest =>
    if root.weight ≤ 1 then (fit root.weight).bind (finishes rest) else some false

/-! ## Edits -/

def checked (check : Except OutlineError Unit) (next : Option (Except OutlineError β)) :
    Option (Except OutlineError β) :=
  match check with
  | .ok _ => next
  | .error e => some (.error e)

def shift (entries : List (Entry α)) (node : Nat) (amount : Int) : Option (List (Entry α)) :=
  (fit (weight ⟨entries⟩ node + amount)).map (reweigh entries node)

def prepend (t : Outline α) (parent : Nat) (value : α) :
    Option (Except OutlineError (Outline α × Nat)) :=
  checked (t.checkNode parent) <| checked (t.checkRoom 1) do
    let below ← fit (t.weight parent - 1)
    return .ok (⟨splice (reweigh t.entries parent 1) (parent + 1) [⟨below, value⟩]⟩, parent + 1)

def append (t : Outline α) (parent : Nat) (value : α) :
    Option (Except OutlineError (Outline α × Nat)) :=
  checked (t.checkNode parent) <| checked (t.checkRoom 1) <|
    if t.isLeaf parent then do
      let below ← fit (t.weight parent - 1)
      return .ok (⟨splice (reweigh t.entries parent 1) (parent + 1) [⟨below, value⟩]⟩, parent + 1)
    else do
      let (stop, total) ← span t parent
      let below ← fit (total - 1)
      let entries ← shift t.entries (stop - 1) (-below)
      return .ok (⟨splice entries stop [⟨below, value⟩]⟩, stop)

def graft (t : Outline α) (parent : Nat) (scion : Outline α) :
    Option (Except OutlineError (Outline α × Nat)) :=
  checked (t.checkNode parent) <| checked (t.checkRoom scion.size) <|
    if t.isLeaf parent then do
      let scion ← shift scion.entries (scion.size - 1) (t.weight parent)
      return .ok (⟨splice (reweigh t.entries parent 1) (parent + 1) scion⟩, parent + 1)
    else do
      let (stop, total) ← span t parent
      let below ← fit (total - 1)
      let entries ← shift t.entries (stop - 1) (-below)
      let scion ← shift scion.entries (scion.size - 1) total
      return .ok (⟨splice entries stop scion⟩, stop)

def subtree (t : Outline α) (node : Nat) : Option (Outline α) := do
  let (stop, total) ← span t node
  let up ← fit (total + 1)
  let entries := (t.entries.drop node).take (stop - node)
  return ⟨← shift entries (entries.length - 1) (-up)⟩

def graftCopy (t : Outline α) (parent : Nat) (source : Outline α) (node : Nat) :
    Option (Except OutlineError (Outline α × Nat)) :=
  checked (source.checkNode node) do
    graft t parent (← subtree source node)

def clearChildren (t : Outline α) (node : Nat) : Option (Except OutlineError (Outline α)) :=
  checked (t.checkNode node) do
    let (stop, total) ← span t node
    return .ok ⟨reweigh (cut t.entries (node + 1) stop) node total⟩

def remove (t : Outline α) (node : Nat) : Option (Except OutlineError (Outline α × Nat)) :=
  checked (t.checkNode node) <|
    if node = 0 then some (.error (.rootRefused "remove"))
    else do
      let (stop, total) ← span t node
      let entries ← shift (cut t.entries node stop) (node - 1) total
      return .ok (⟨entries⟩, node)

def dissolve (t : Outline α) (node : Nat) : Option (Except OutlineError (Outline α × Nat)) :=
  checked (t.checkNode node) <|
    if node = 0 then some (.error (.rootRefused "skip_remove"))
    else if t.isLeaf node then remove t node
    else do
      let (stop, _) ← span t node
      let entries ← shift t.entries (stop - 1) 1
      return .ok (⟨cut entries node (node + 1)⟩, node)

def prune (t : Outline α) (target source : Nat) :
    Option (Except OutlineError (Outline α × Nat)) :=
  checked (t.checkNode target) <| checked (t.checkNode source) do
    let (targetStop, targetTotal) ← span t target
    if target < source ∧ source < targetStop then
      let (sourceStop, sourceTotal) ← span t source
      let kept := cut (cut t.entries sourceStop targetStop) target source
      let amount ← fit (targetTotal - sourceTotal)
      let entries ← shift kept (target + (sourceStop - source) - 1) amount
      return .ok (⟨entries⟩, target)
    else return .error (.notInside target source)

def wrap (t : Outline α) (node : Nat) (value : α) :
    Option (Except OutlineError (Outline α × Nat)) :=
  checked (t.checkNode node) <| checked (t.checkRoom 1) do
    let (stop, _) ← span t node
    let entries ← shift t.entries (stop - 1) (-1)
    return .ok (⟨splice entries node [⟨1, value⟩]⟩, node)

end Bounded

end StepScript.Outline
