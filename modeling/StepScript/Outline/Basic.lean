/-! Ordered trees written as outlines.

An outline lists the nodes of a tree in pre-order. In place of links every
entry carries a *weight*: the depth of the next entry minus its own depth, the
place past the last entry counting as depth `-1`. A lone root has weight `-1`
and no weight is above `1`.

Sums of weights recover the shape. An entry has children exactly when its
weight is `1`; summing forward, a subtree ends where the sum first drops to `0`
or below; summing backward, the parent is where the sum first becomes positive.
Nodes are named by their position.
-/

set_option autoImplicit false

namespace StepScript

structure Entry (α : Type) where
  weight : Int
  value : α
  deriving Repr, DecidableEq

/-- A tree as the pre-order list of its weighted nodes. -/
structure Outline (α : Type) where
  entries : List (Entry α)
  deriving Repr, DecidableEq

/-- An ordered tree in linked form, the meaning of a well-formed outline. -/
inductive Rose (α : Type) where
  | node (value : α) (children : List (Rose α))

namespace Rose

variable {α : Type}

def value : Rose α → α
  | node value _ => value

def children : Rose α → List (Rose α)
  | node _ children => children

def leaf (value : α) : Rose α :=
  node value []

instance [Inhabited α] : Inhabited (Rose α) := ⟨leaf default⟩

mutual

/-- The entries of a tree whose successor lies `after` levels below its root. -/
def entriesBefore (after : Int) : Rose α → List (Entry α)
  | node value children =>
    ⟨if children.isEmpty then after else 1, value⟩ :: forestBefore (after - 1) children

/-- The entries of consecutive siblings; only the last one sees what follows. -/
def forestBefore (after : Int) : List (Rose α) → List (Entry α)
  | [] => []
  | tree :: rest =>
    entriesBefore (if rest.isEmpty then after else 0) tree ++ forestBefore after rest

end

end Rose

namespace Outline

variable {α : Type}

def ofRose (tree : Rose α) : Outline α :=
  ⟨tree.entriesBefore (-1)⟩

def singleton (value : α) : Outline α :=
  ⟨[⟨-1, value⟩]⟩

def size (t : Outline α) : Nat :=
  t.entries.length

def get? (t : Outline α) (node : Nat) : Option α :=
  t.entries[node]?.map (·.value)

def weight (t : Outline α) (node : Nat) : Int :=
  (t.entries[node]?.map (·.weight)).getD 0

/-! ## Forward sums -/

/-- The length and the total weight of the subtree at the head of `entries`,
given the weight summed so far. -/
def extent : List (Entry α) → Int → Nat × Int
  | [], sum => (0, sum)
  | entry :: rest, sum =>
    if sum + entry.weight ≤ 0 then (1, sum + entry.weight)
    else
      let (count, total) := extent rest (sum + entry.weight)
      (count + 1, total)

def span (t : Outline α) (node : Nat) : Nat × Int :=
  let (count, total) := extent (t.entries.drop node) 0
  (node + count, total)

def stop (t : Outline α) (node : Nat) : Nat :=
  (t.span node).1

/-- The total weight of the subtree of `node`: `0` when a next sibling follows,
negative otherwise. -/
def deepWeight (t : Outline α) (node : Nat) : Int :=
  (t.span node).2

def deepSize (t : Outline α) (node : Nat) : Nat :=
  t.stop node - node

def isLeaf (t : Outline α) (node : Nat) : Bool :=
  t.weight node < 1

def firstChild (t : Outline α) (node : Nat) : Option Nat :=
  if t.isLeaf node then none else some (node + 1)

def nextSibling (t : Outline α) (node : Nat) : Option Nat :=
  let (stop, total) := t.span node
  if stop < t.size ∧ total = 0 then some stop else none

def siblingsFrom (t : Outline α) : Nat → Nat → List Nat
  | 0, _ => []
  | limit + 1, node =>
    node :: match t.nextSibling node with
      | some next => t.siblingsFrom limit next
      | none => []

def children (t : Outline α) (node : Nat) : List Nat :=
  match t.firstChild node with
  | some first => t.siblingsFrom t.size first
  | none => []

def childCount (t : Outline α) (node : Nat) : Nat :=
  (t.children node).length

def child (t : Outline α) (node position : Nat) : Option Nat :=
  (t.children node)[position]?

def lastChild (t : Outline α) (node : Nat) : Option Nat :=
  (t.children node).getLast?

/-- Whether `node` lies in the subtree of `ancestor`, `ancestor` included. -/
def contains (t : Outline α) (ancestor node : Nat) : Bool :=
  ancestor ≤ node && node < t.stop ancestor

/-! ## Backward sums -/

/-- The position of the parent, looking through the entries before a node from
the nearest on. -/
def parentAmong : List (Entry α) → Int → Option Nat
  | [], _ => none
  | entry :: before, sum =>
    if sum + entry.weight > 0 then some before.length
    else parentAmong before (sum + entry.weight)

def siblingAmong : List (Entry α) → Int → Option Nat
  | [], _ => none
  | entry :: before, sum =>
    if sum + entry.weight = 0 then some before.length
    else if sum + entry.weight > 0 then none
    else siblingAmong before (sum + entry.weight)

def parent (t : Outline α) (node : Nat) : Option Nat :=
  parentAmong (t.entries.take node).reverse 0

def prevSibling (t : Outline α) (node : Nat) : Option Nat :=
  siblingAmong (t.entries.take node).reverse 0

def totalWeight (entries : List (Entry α)) : Int :=
  entries.foldr (fun entry sum => entry.weight + sum) 0

def depth (t : Outline α) (node : Nat) : Nat :=
  (totalWeight (t.entries.take node)).toNat

/-! ## Shape check and text -/

/-- Whether `entries` finish a tree begun by entries that lead to `depth`. -/
def finishes : List (Entry α) → Int → Bool
  | [], depth => depth == -1
  | entry :: rest, depth =>
    1 ≤ depth && entry.weight ≤ 1 && finishes rest (depth + entry.weight)

def isWellFormed (t : Outline α) : Bool :=
  match t.entries with
  | [] => false
  | root :: rest => root.weight ≤ 1 && finishes rest root.weight

def entryText (text : α → String) (entry : Entry α) : String :=
  toString entry.weight ++ ":" ++ text entry.value

def linesFrom (text : α → String) : List (Entry α) → Int → List String
  | [], _ => []
  | entry :: rest, depth =>
    (String.ofList (List.replicate depth.toNat '>') ++ entryText text entry ++ "\n") ::
      linesFrom text rest (depth + entry.weight)

def display (t : Outline α) (text : α → String) : String :=
  String.join (linesFrom text t.entries 0)

end Outline

end StepScript
