import StepScript.Proofs.Grammar.Shape
import StepScript.Proofs.Outline.BoundedRefinement

/-! Code that is put together step by step.

The grammar reads a tree and lists it once at the end. The same code comes from edits of
outlines, one for each part as it is read: an operator goes over its left operand, which is
there already, everything else begins with a root of its own, and each further part is
grafted under the root. What that adds is a way to fail, for code past the capacity.
-/

set_option autoImplicit false

namespace StepScript

variable {α : Type}

namespace Outline

open Rose

/-- The outline of a tree, if there is room for all its nodes. -/
def ofRose? (tree : Rose α) : Except OutlineError (Outline α) :=
  if tree.size ≤ capacity then .ok (ofRose tree) else .error (.tooLarge capacity)

theorem graft_root (value : α) (children : List (Rose α)) (scion : Rose α) :
    (ofRose (node value children)).graft 0 (ofRose scion) =
      (ofRose? (node value (children ++ [scion]))).map (·, (node value children).size) := by
  have grown : (node value (children ++ [scion])).size =
      (node value children).size + scion.size := by
    simp only [Rose.size, forestSize_append, forestSize]
    omega
  rw [ofRose?, grown]
  by_cases room : (node value children).size + scion.size ≤ capacity
  · have root : (node value children).at? [] = some (node value children) := rfl
    have placed := graft_place root scion room
    rw [if_pos room]
    rw [show (node value children).place [] = 0 from rfl, Nat.zero_add] at placed
    exact placed
  · have full : (node value children).size + scion.size > capacity := by omega
    rw [if_neg room, graft, checkNode, checkRoom, size_ofRose, size_ofRose,
      if_pos (node value children).size_pos, if_pos full]
    rfl

theorem wrap_root (tree : Rose α) (value : α) :
    (ofRose tree).wrap 0 value = (ofRose? (node value [tree])).map (·, 0) := by
  have grown : (node value [tree]).size = tree.size + 1 := rfl
  rw [ofRose?, grown]
  by_cases room : tree.size + 1 ≤ capacity
  · have root : tree.at? [] = some tree := rfl
    rw [if_pos room]
    exact wrap_place root value room
  · have full : tree.size + 1 > capacity := by omega
    rw [if_neg room, wrap, checkNode, checkRoom, size_ofRose, if_pos tree.size_pos, if_pos full]
    rfl

theorem set_root (old new : α) (children : List (Rose α)) :
    (ofRose (node old children)).set? 0 new = some (ofRose (node new children)) := by
  rw [set?, if_pos (by rw [size_ofRose]; exact Rose.size_pos _)]
  rfl

theorem relabel_root (old new : α) (children : List (Rose α)) :
    (ofRose? (node old children)).map (fun t => (t.set? 0 new).getD t) =
      ofRose? (node new children) := by
  rw [ofRose?, ofRose?, show (node old children).size = (node new children).size from rfl]
  split
  · exact congrArg (fun t => Except.ok (Option.getD t _)) (set_root old new children)
  · rfl

end Outline

/-! ## Assembly -/

namespace Node

/-- Whether the node goes over its first part instead of being there before it. -/
def wraps : Node → Bool
  | operation .objectLiteral | operation .arrayLiteral | operation .functionLiteral
  | operation .construct => false
  | operation _ => true
  | _ => false

/-- What a root holds until its parts have been read: that a statement declares a function
shows only behind it. -/
def draft : Node → Node
  | statement .functionDeclaration => statement .expression
  | node => node

end Node

namespace Branch

open Outline

def andThen {β γ : Type} (first : Option (Except OutlineError β))
    (next : β → Option (Except OutlineError γ)) : Option (Except OutlineError γ) :=
  first.bind fun
    | .ok given => next given
    | .error e => some (.error e)

mutual

/-- The code of a tree by edits with weights of 32 bits, from its parts upwards. -/
def assemble : Branch → Option (Except OutlineError Code)
  | .node value [] => some (.ok (singleton value))
  | .node value (first :: rest) =>
    if value.wraps then
      andThen (assemble first) fun inner =>
        andThen (Bounded.wrap inner 0 value) fun (code, _) => assembleUnder code rest
    else
      (assembleUnder (singleton value.draft) (first :: rest)).map
        (·.map fun code => (code.set? 0 value).getD code)

def assembleUnder (code : Code) : List Branch → Option (Except OutlineError Code)
  | [] => some (.ok code)
  | part :: rest =>
    andThen (assemble part) fun scion =>
      andThen (Bounded.graft code 0 scion) fun (code, _) => assembleUnder code rest

end

theorem ofRose?_of_size_le {tree : Branch} (room : tree.size ≤ capacity) :
    ofRose? tree = .ok (ofRose tree) :=
  if_pos room

theorem ofRose?_eq_error {part whole : Branch} (below : part.size ≤ whole.size)
    (full : ¬ part.size ≤ capacity) : ofRose? whole = .error (.tooLarge capacity) :=
  if_neg (by omega)

theorem size_node_append (value : Node) (done parts : List Branch) :
    (Rose.node value (done ++ parts)).size =
      (Rose.node value done).size + Rose.forestSize parts := by
  simp only [Rose.size, Rose.forestSize_append]
  omega

section

variable {standard : Standard}

theorem meets_andThen {β : Type} {first : Option (Except OutlineError β)} {part whole : Branch}
    {f : Code → β} {next : β → Option (Except OutlineError Code)}
    (before : standard.Meets first ((ofRose? part).map f)) (below : part.size ≤ whole.size)
    (later : part.size ≤ capacity → standard.Meets (next (f (ofRose part))) (ofRose? whole)) :
    standard.Meets (andThen first next) (ofRose? whole) := by
  refine standard.bind before ?_
  by_cases room : part.size ≤ capacity
  · rw [ofRose?_of_size_le room]
    exact later room
  · rw [ofRose?_eq_error (Nat.le_refl _) room, ofRose?_eq_error below room]
    exact standard.some _

/-- The edits of an assembly come up to the standard as long as trees are small. -/
structure Provided (standard : Standard) (small : Nat → Prop) : Prop where
  fewer (m n : Nat) : m ≤ n → small n → small m
  wrap (tree : Branch) (value : Node) : small (tree.size + 1) →
    standard.Meets (Bounded.wrap (ofRose tree) 0 value) ((ofRose tree).wrap 0 value)
  graft (tree scion : Branch) : small (tree.size + scion.size) →
    standard.Meets (Bounded.graft (ofRose tree) 0 (ofRose scion))
      ((ofRose tree).graft 0 (ofRose scion))

variable {small : Nat → Prop} (provided : Provided standard small)
include provided

mutual

theorem meets_assemble : ∀ tree : Branch, small tree.size →
    standard.Meets (assemble tree) (ofRose? tree)
  | .node value [], _ => standard.some _
  | .node value (first :: rest), few => by
    have size := size_node_append value [first] rest
    have alone : (Rose.node value [first]).size = first.size + 1 := rfl
    rw [List.singleton_append, alone] at size
    rw [assemble]
    split
    case isTrue wraps =>
      have inner : standard.Meets (assemble first) ((ofRose? first).map id) := by
        rw [Except.map_id]
        exact meets_assemble first (provided.fewer _ _ (by omega) few)
      refine meets_andThen inner (by omega) fun _ => ?_
      have wrapped := provided.wrap first value (provided.fewer _ _ (by omega) few)
      rw [wrap_root] at wrapped
      refine meets_andThen wrapped (by omega) fun room => ?_
      exact meets_assembleUnder value [first] rest room few
    case isFalse plain =>
      have root : (Rose.node value.draft []).size ≤ capacity := (by decide : 0 + 1 ≤ capacity)
      have under := standard.map (Except.map fun code => (code.set? 0 value).getD code)
        (meets_assembleUnder value.draft [] (first :: rest) root few)
      rwa [List.nil_append, relabel_root] at under

theorem meets_assembleUnder : ∀ (value : Node) (done parts : List Branch),
    (Rose.node value done).size ≤ capacity → small (Rose.node value (done ++ parts)).size →
      standard.Meets (assembleUnder (ofRose (.node value done)) parts)
        (ofRose? (.node value (done ++ parts)))
  | value, done, [], room, few => by
    rw [List.append_nil, ofRose?_of_size_le room]
    exact standard.some _
  | value, done, part :: rest, room, few => by
    have size := size_node_append value done (part :: rest)
    have more := size_node_append value done [part]
    simp only [Rose.forestSize] at size more
    rw [assembleUnder]
    have inner : standard.Meets (assemble part) ((ofRose? part).map id) := by
      rw [Except.map_id]
      exact meets_assemble part (provided.fewer _ _ (by omega) few)
    refine meets_andThen inner (by omega) fun _ => ?_
    have under := provided.graft (.node value done) part (provided.fewer _ _ (by omega) few)
    rw [graft_root] at under
    refine meets_andThen under (by omega) fun room => ?_
    have whole := meets_assembleUnder value (done ++ [part]) rest room
    rw [List.append_assoc, List.singleton_append] at whole
    exact whole few

end

end

/-- What comes out of an assembly is the code of the tree, or that there is no room for it. -/
theorem sound_assemble (tree : Branch) : Sound (assemble tree) (ofRose? tree) :=
  have provided : Provided .sound fun _ => True :=
    ⟨fun _ _ _ _ => trivial, fun tree value _ => Bounded.sound_wrap (ofRose tree) 0 value,
      fun tree scion _ => Bounded.sound_graft (ofRose tree) 0 (ofRose scion)⟩
  meets_assemble provided tree trivial

theorem narrow_of_ofRose? {β : Type} {tree : Branch} {code : Code} {given n : β}
    (few : tree.size ≤ 2147483648) (done : (ofRose? tree).map (·, given) = .ok (code, n)) :
    code.Narrow := by
  have room : tree.size ≤ capacity := Nat.le_trans few (by decide)
  rw [ofRose?_of_size_le room] at done
  cases done
  have grown : (ofRose tree).Grown := ⟨tree, rfl⟩
  exact (Shallow.answered grown (grown.shallow (size_ofRose tree ▸ few))).narrow

/-- Something comes out, if the tree has at most `2 ^ 31` nodes. -/
theorem assemble_eq {tree : Branch} (few : tree.size ≤ 2147483648) :
    assemble tree = some (.ok (ofRose tree)) := by
  have room : tree.size ≤ capacity := Nat.le_trans few (by decide)
  have shallow {tree : Branch} (few : tree.size ≤ 2147483648) : (ofRose tree).Shallow :=
    Grown.shallow ⟨tree, rfl⟩ (size_ofRose tree ▸ few)
  have provided : Provided .exact (· ≤ 2147483648) := by
    refine ⟨fun m n => Nat.le_trans, fun tree value few => ?_, fun tree scion few => ?_⟩
    · refine Bounded.wrap_eq ⟨tree, rfl⟩ (shallow (by omega)) fun changed n done => ?_
      have size : (Rose.node value [tree]).size = tree.size + 1 := rfl
      rw [wrap_root] at done
      exact narrow_of_ofRose? (size ▸ few) done
    · obtain ⟨value, children⟩ := tree
      have nonempty : 0 < (ofRose scion).size := size_ofRose scion ▸ scion.size_pos
      refine Bounded.graft_eq ⟨_, rfl⟩ (shallow (by omega)) nonempty fun changed n done => ?_
      have size := size_node_append value children [scion]
      simp only [Rose.forestSize] at size
      rw [graft_root] at done
      exact narrow_of_ofRose? (by omega) done
  rw [← ofRose?_of_size_le room]
  exact meets_assemble provided tree few

end Branch

end StepScript
