import StepScript.Outline.Bounded

/-! Queries for positions that come from outside.

`none` says that the question cannot be asked at that position, or that a sum does
not fit. A question about the subtree that starts at a position, or about what
precedes it, can be asked up to and including the end of the outline; a question
about the node itself only before the end.
-/

set_option autoImplicit false

namespace StepScript.Outline

variable {α β : Type}

/-- Asks `question` of a place in the outline, its end included. -/
def atPlace? (t : Outline α) (node : Nat) (question : Outline α → Nat → β) : Option β :=
  if node ≤ t.size then some (question t node) else none

def atNode? (t : Outline α) (node : Nat) (question : Outline α → Nat → β) : Option β :=
  if node < t.size then some (question t node) else none

def weight? (t : Outline α) (node : Nat) : Option Int := t.atNode? node weight

def deepWeight? (t : Outline α) (node : Nat) : Option Int :=
  (t.atPlace? node Bounded.deepWeight).join

def isLeaf? (t : Outline α) (node : Nat) : Option Bool := t.atNode? node isLeaf

def stop? (t : Outline α) (node : Nat) : Option Nat := (t.atPlace? node Bounded.stop).join

def deepSize? (t : Outline α) (node : Nat) : Option Nat := (t.atPlace? node Bounded.deepSize).join

def depth? (t : Outline α) (node : Nat) : Option Nat := (t.atPlace? node Bounded.depth).join

def firstChild? (t : Outline α) (node : Nat) : Option (Option Nat) := t.atNode? node firstChild

def nextSibling? (t : Outline α) (node : Nat) : Option (Option Nat) :=
  (t.atPlace? node Bounded.nextSibling).join

def prevSibling? (t : Outline α) (node : Nat) : Option (Option Nat) :=
  (t.atPlace? node Bounded.prevSibling).join

def parent? (t : Outline α) (node : Nat) : Option (Option Nat) :=
  (t.atPlace? node Bounded.parent).join

def lastChild? (t : Outline α) (node : Nat) : Option (Option Nat) :=
  (t.atNode? node Bounded.lastChild).join

def childCount? (t : Outline α) (node : Nat) : Option Nat :=
  (t.atNode? node Bounded.childCount).join

def children? (t : Outline α) (node : Nat) : Option (List Nat) :=
  (t.atNode? node Bounded.children).join

def child? (t : Outline α) (node position : Nat) : Option (Option Nat) :=
  (t.atNode? node fun t node => Bounded.child t node position).join

/-- A node before its supposed ancestor is not inside it, wherever that is. -/
def contains? (t : Outline α) (ancestor node : Nat) : Option Bool :=
  if ancestor ≤ node then
    (t.atPlace? ancestor fun t ancestor => Bounded.contains t ancestor node).join
  else some false

end StepScript.Outline
