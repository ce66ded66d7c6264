import StepScript.Proofs.Evaluator.Operands
import StepScript.Proofs.Stack.Waiting

/-! What handlers leave behind.

A frame keeps what its walk left waiting, and nothing else. `Tidies frame M C x Q`
says that a handler which starts with values under positions in `M` and hooks'
results under positions in `C` ends with a result and with positions that satisfy
`Q`, and that it does not fail because too many frames are running. It has one
rule for each part handlers are made of. `Move.Leaves` says what a move may leave
behind: what waits where it leads.
-/

set_option autoImplicit false

namespace StepScript

variable {σ α β : Type}

def Folding (code : Code) (n k : Nat) : Prop :=
  Waiting code n k ∨ ∃ d, Decides code n d ∧ Met code n d k

namespace Frame

variable (frame : Frame)

/-- The positions whose values wait in a frame, from where it stands. -/
def Kept (k : Nat) : Prop :=
  Waiting frame.code frame.current k ∨
    frame.previous ∈ frame.code.children frame.current ∧
      Met frame.code frame.current frame.previous k ∨
    frame.previous = frame.current ∧ Folding frame.code frame.current k

def Settled (k : Nat) : Prop :=
  frame.previous = frame.current ∧ Convertible frame.code frame.current k

end Frame

/-- What a move may leave behind: `M` are the positions of values, `C` those of
hooks' results. -/
def Move.Leaves (frame : Frame) : Move → (Nat → Prop) → (Nat → Prop) → Prop
  | .descend child, M, C =>
    Evaluated frame.code child ∧
      frame.code.get? frame.current ≠ some (.operation .functionLiteral) ∧
      (∀ k, M k → Waiting frame.code frame.current k ∨ Beside frame.code frame.current child k) ∧
      ∀ k, ¬ C k
  | .finish _, M, C =>
    (∀ k, M k → Waiting frame.code frame.current k ∨ Residue frame.code frame.current k) ∧
      ∀ k, ¬ C k
  | .give _, _, _ =>
    ∃ node, frame.code.get? frame.current = some node ∧
      (node.isSequence = true ∨ node = .statement .ret)
  | .call _ _, M, C =>
    frame.code.get? frame.current = some (.operation .call) ∧
      (∀ k, M k → Waiting frame.code frame.current k) ∧ ∀ k, ¬ C k
  | .convert operand _ _, M, C =>
    Convertible frame.code frame.current operand ∧
      (∀ k, M k → Folding frame.code frame.current k) ∧
      ∀ k, C k → Convertible frame.code frame.current k

structure Local.Holds (frame : Frame) (M C : Nat → Prop) (l : Local σ) : Prop where
  same : l.frame = { frame with memo := l.frame.memo, converted := l.frame.converted }
  memo : ∀ k, (l.frame.memo.find? k).isSome = true → M k
  converted : ∀ k, (l.frame.converted.find? k).isSome = true → C k

namespace Local.Holds

variable {frame : Frame} {M C : Nat → Prop} {l : Local σ}

theorem mono {M' C' : Nat → Prop} (holds : l.Holds frame M C) (memo : ∀ k, M k → M' k)
    (converted : ∀ k, C k → C' k) : l.Holds frame M' C' :=
  ⟨holds.same, fun k kept => memo k (holds.memo k kept),
    fun k kept => converted k (holds.converted k kept)⟩

theorem kind (holds : l.Holds frame M C) : l.frame.kind = frame.kind := by rw [holds.same]

theorem scope (holds : l.Holds frame M C) : l.frame.scope = frame.scope := by rw [holds.same]

theorem code (holds : l.Holds frame M C) : l.frame.code = frame.code := by rw [holds.same]

theorem current (holds : l.Holds frame M C) : l.frame.current = frame.current := by
  rw [holds.same]

theorem previous (holds : l.Holds frame M C) : l.frame.previous = frame.previous := by
  rw [holds.same]

theorem below (holds : l.Holds frame M C) (inner : (frame.code.parent frame.current).isSome = true) :
    (l.frame.code.parent l.frame.current).isSome = true := by
  rw [holds.code, holds.current]
  exact inner

theorem keep (holds : l.Holds frame M C) (node : Nat) (value : Value) :
    ({ l with frame := l.frame.keep node value } : Local σ).Holds frame
      (fun k => k = node ∨ M k) C := by
  refine ⟨?_, fun k kept => ?_, holds.converted⟩
  · simp only [Frame.keep]
    rw [holds.same]
  · simp only [Frame.keep, NodeMap.find?_insert] at kept
    split at kept
    · exact .inl ‹_›
    · exact .inr (holds.memo k kept)

theorem discard (holds : l.Holds frame M C) (node : Nat) :
    ({ l with frame := l.frame.discard node } : Local σ).Holds frame
      (fun k => M k ∧ k ≠ node) C := by
  refine ⟨?_, fun k kept => ?_, holds.converted⟩
  · simp only [Frame.discard]
    rw [holds.same]
  · simp only [Frame.discard, NodeMap.find?_erase] at kept
    split at kept
    · cases kept
    · exact ⟨holds.memo k kept, ‹_›⟩

theorem discardConverted (holds : l.Holds frame M C) (node : Nat) :
    ({ l with frame := l.frame.discardConverted node } : Local σ).Holds frame M
      (fun k => C k ∧ k ≠ node) := by
  refine ⟨?_, holds.memo, fun k kept => ?_⟩
  · simp only [Frame.discardConverted]
    rw [holds.same]
  · simp only [Frame.discardConverted, NodeMap.find?_erase] at kept
    split at kept
    · cases kept
    · exact ⟨holds.converted k kept, ‹_›⟩

end Local.Holds

namespace Handler

def Tidy (frame : Frame) (Q : α → (Nat → Prop) → (Nat → Prop) → Prop) :
    Except EvalError α × Local σ → Prop
  | (.ok a, l) => ∃ M C, l.Holds frame M C ∧ Q a M C
  | (.error e, _) => e ≠ .uncaught .tooManyCalls

/-- From positions in `M` and `C` the handler comes to a tidy end. -/
def Tidies (frame : Frame) (M C : Nat → Prop) (x : Handler σ α)
    (Q : α → (Nat → Prop) → (Nat → Prop) → Prop) : Prop :=
  ∀ l : Local σ, l.Holds frame M C → Tidy frame Q (x.run l)

namespace Tidies

variable {frame : Frame} {M C : Nat → Prop} {Q : β → (Nat → Prop) → (Nat → Prop) → Prop}

theorem pure {a : β} (holds : Q a M C) : Tidies frame M C (Pure.pure a : Handler σ β) Q :=
  fun _ held => ⟨M, C, held, holds⟩

theorem throw {e : EvalError} (other : e ≠ .uncaught .tooManyCalls) :
    Tidies frame M C (MonadExcept.throw e : Handler σ β) Q :=
  fun _ _ => other

theorem fault {f : Fault} (other : f ≠ .tooManyCalls) :
    Tidies frame M C (Handler.fault f : Handler σ β) Q :=
  .throw (by simpa using other)

theorem bind {x : Handler σ α} {f : α → Handler σ β} {P : α → (Nat → Prop) → (Nat → Prop) → Prop}
    (first : Tidies frame M C x P)
    (next : ∀ a M' C', P a M' C' → Tidies frame M' C' (f a) Q) :
    Tidies frame M C (x >>= f) Q := by
  intro l held
  have tidy := first l held
  show Tidy frame Q ((ExceptT.bindCont f (x.run l).1) (x.run l).2)
  rcases result : x.run l with ⟨e | a, after⟩
  · rw [result] at tidy
    exact tidy
  · rw [result] at tidy
    obtain ⟨M', C', held', holds⟩ := tidy
    exact next a M' C' holds after held'

theorem mono {x : Handler σ β} {P : β → (Nat → Prop) → (Nat → Prop) → Prop}
    (tidies : Tidies frame M C x P) (weaker : ∀ a M' C', P a M' C' → Q a M' C') :
    Tidies frame M C x Q := by
  intro l held
  have tidy := tidies l held
  rcases result : x.run l with ⟨e | a, after⟩
  · rw [result] at tidy
    exact tidy
  · rw [result] at tidy
    obtain ⟨M', C', held', holds⟩ := tidy
    exact ⟨M', C', held', weaker a M' C' holds⟩

theorem weaken {M' C' : Nat → Prop} {x : Handler σ β} (memo : ∀ k, M k → M' k)
    (converted : ∀ k, C k → C' k) (tidies : Tidies frame M' C' x Q) : Tidies frame M C x Q :=
  fun l held => tidies l (held.mono memo converted)

theorem after {x : Handler σ α} {g : α → Handler σ β}
    (quiet : Tidies frame M C x fun _ M' C' => M' = M ∧ C' = C)
    (next : ∀ a, Tidies frame M C (g a) Q) : Tidies frame M C (x >>= g) Q := by
  refine .bind quiet fun a M' C' same => ?_
  rw [same.1, same.2]
  exact next a

theorem ite {c : Prop} [Decidable c] {x y : Handler σ β} (yes : c → Tidies frame M C x Q)
    (no : ¬ c → Tidies frame M C y Q) : Tidies frame M C (if c then x else y) Q := by
  split
  · exact yes ‹c›
  · exact no ‹¬ c›

/-! ## What handlers are made of -/

theorem readFrame {g : Frame → Handler σ β} (next : ∀ f, Tidies frame M C (g f) Q) :
    Tidies frame M C (Handler.frame >>= g) Q :=
  fun l held => next l.frame l held

theorem readCode {g : Code → Handler σ β} (next : Tidies frame M C (g frame.code) Q) :
    Tidies frame M C (Handler.code >>= g) Q := by
  intro l held
  have tidy := next l held
  rw [← held.code] at tidy
  exact tidy

theorem readStore {g : Store σ → Handler σ β} (next : ∀ s, Tidies frame M C (g s) Q) :
    Tidies frame M C (Handler.store >>= g) Q :=
  fun l held => next l.store l held

theorem setStore {s : Store σ} {g : Unit → Handler σ β} (next : Tidies frame M C (g ()) Q) :
    Tidies frame M C (Handler.setStore s >>= g) Q :=
  fun l held => next { l with store := s } ⟨held.same, held.memo, held.converted⟩

theorem closure {id : Nat} {g : Closure → Handler σ β} (next : ∀ c, Tidies frame M C (g c) Q) :
    Tidies frame M C (Handler.closure id >>= g) Q :=
  fun l held => next (l.store.closure id) l held

theorem keep {node : Nat} {value : Value} {g : Unit → Handler σ β}
    (next : Tidies frame (fun k => k = node ∨ M k) C (g ()) Q) :
    Tidies frame M C (modifyFrame (·.keep node value) >>= g) Q :=
  fun l held => next { l with frame := l.frame.keep node value } (held.keep node value)

theorem discard {node : Nat} {g : Unit → Handler σ β}
    (next : Tidies frame (fun k => M k ∧ k ≠ node) C (g ()) Q) :
    Tidies frame M C (modifyFrame (·.discard node) >>= g) Q :=
  fun l held => next { l with frame := l.frame.discard node } (held.discard node)

theorem discardConverted {node : Nat} {g : Unit → Handler σ β}
    (next : Tidies frame M (fun k => C k ∧ k ≠ node) (g ()) Q) :
    Tidies frame M C (modifyFrame (·.discardConverted node) >>= g) Q :=
  fun l held => next { l with frame := l.frame.discardConverted node }
    (held.discardConverted node)

theorem take {node : Nat} {g : Value → Handler σ β}
    (next : ∀ value, Tidies frame (fun k => M k ∧ k ≠ node) C (g value) Q) :
    Tidies frame M C (Handler.take node >>= g) Q :=
  fun l held => next (l.frame.peek node) { l with frame := l.frame.discard node }
    (held.discard node)

theorem takeConverted {node : Nat} {g : Value → Handler σ β}
    (next : ∀ value, Tidies frame (fun k => M k ∧ k ≠ node) (fun k => C k ∧ k ≠ node) (g value) Q) :
    Tidies frame M C (Handler.takeConverted node >>= g) Q :=
  fun l held => next _ { l with frame := (l.frame.discard node).discardConverted node }
    ((held.discard node).discardConverted node)

theorem act {computation : Act σ α} {g : α → Handler σ β}
    (next : ∀ a, Tidies frame M C (g a) Q) :
    Tidies frame M C (Handler.act computation >>= g) Q := by
  intro l held
  have tidy := fun a s => next a { l with store := s } ⟨held.same, held.memo, held.converted⟩
  rw [show ((Handler.act computation >>= g).run l) = _ from exec_bind _ _ _, exec_act]
  rcases computation.run l.store with ⟨e | a, s⟩
  · cases e <;> simp [Tidy, EvalError.ofValueError]
  · exact tidy a s

theorem requiredChild {node position child : Nat} {g : Nat → Handler σ β}
    (promised : frame.code.child node position = some child)
    (next : Tidies frame M C (g child) Q) :
    Tidies frame M C (Handler.requiredChild node position >>= g) Q := by
  intro l held
  have tidy := next l held
  have ran : (Handler.requiredChild node position : Handler σ Nat).exec l = (.ok child, l) := by
    rw [Handler.requiredChild, exec_bind, exec_code, andThen_ok, held.code, promised]
    rfl
  rw [show ((Handler.requiredChild node position >>= g).run l) = _ from exec_bind _ _ _, ran]
  exact tidy

theorem runHooks {operands : List (Nat × Value)} {conversion : Conversion}
    {g : Option Move → Handler σ β}
    (hook : ∀ operand ∈ operands.map (·.1), ∀ closure,
      Tidies frame M C (g (some (.convert operand conversion closure))) Q)
    (none : Tidies frame M C (g none) Q) :
    Tidies frame M C (Handler.runHooks operands conversion >>= g) Q := by
  intro l held
  rw [show ((Handler.runHooks operands conversion >>= g).run l) = _ from exec_bind _ _ _,
    exec_runHooks, andThen_ok]
  cases pending : pendingHook? l.frame.converted l.store conversion operands with
  | none => exact none l held
  | some first =>
    obtain ⟨operand, member, same⟩ := mem_of_pendingHook? pending
    exact hook first.1 (List.mem_map.mpr ⟨operand, member, same⟩) _ l held

end Tidies

/-! ## Meeting a node -/

section Node

variable {frame : Frame} (poised : frame.Poised) {M C : Nat → Prop}
  {Q : β → (Nat → Prop) → (Nat → Prop) → Prop}
include poised

theorem apart_of_enter (entered : frame.visit frame.current = .ok .enter) :
    frame.previous ∉ frame.code.children frame.current ∧
      (frame.previous = frame.current →
        (frame.code.get? frame.current).all Node.folds = false) := by
  obtain ⟨root, rooted, which⟩ := poised.rooted
  -- The root is entered from itself and any other node from its parent; neither is a child.
  by_cases top : frame.current = 0
  · have first : frame.previous = frame.current := by
      have none : frame.code.parent 0 = none := rfl
      unfold Frame.visit at entered
      simp only [top, none, beq_iff_eq] at entered
      split at entered
      · rw [top]
        assumption
      · split at entered
        · cases entered
        · cases entered
    refine ⟨fun member => ?_, fun _ => ?_⟩
    · have := (rooted.child_bounds member).1
      omega
    · rw [top, rooted.get?_zero]
      rcases which with rfl | rfl
      · rfl
      · rfl
  · obtain ⟨parent, above, -, child⟩ := rooted.exists_parent poised.inside top
    have less := (rooted.child_bounds child).1
    have first : parent = frame.previous := by
      unfold Frame.visit at entered
      simp only [above, beq_iff_eq] at entered
      split at entered
      · assumption
      · split at entered
        · cases entered
        · cases entered
    refine ⟨fun member => ?_, fun same => ?_⟩
    · have := (rooted.child_bounds member).1
      omega
    · omega

theorem kept_of_enter (entered : frame.visit frame.current = .ok .enter) {k : Nat}
    (kept : frame.Kept k) : Waiting frame.code frame.current k := by
  obtain ⟨outside, moved⟩ := apart_of_enter poised entered
  rcases kept with waits | ⟨member, -⟩ | ⟨same, waits | ⟨d, decides, -⟩⟩
  · exact waits
  · exact absurd member outside
  · exact waits
  · obtain ⟨node, found, folds, -⟩ := decides
    have plain := moved same
    rw [found, Option.all_some, folds] at plain
    cases plain

theorem settled_of_enter (entered : frame.visit frame.current = .ok .enter) (k : Nat) :
    ¬ frame.Settled k := by
  rintro ⟨same, convertible⟩
  obtain ⟨node, found, folds⟩ := convertible.folds
  have plain := (apart_of_enter poised entered).2 same
  rw [found, Option.all_some, folds] at plain
  cases plain

theorem previous_ne (member : frame.previous ∈ frame.code.children frame.current) :
    frame.previous ≠ frame.current := by
  obtain ⟨root, rooted, -⟩ := poised.rooted
  have := (rooted.child_bounds member).1
  omega

theorem kept_of_resume (member : frame.previous ∈ frame.code.children frame.current) {k : Nat}
    (kept : frame.Kept k) : Met frame.code frame.current frame.previous k := by
  rcases kept with waits | ⟨-, met⟩ | ⟨same, -⟩
  · exact .inl waits
  · exact met
  · exact absurd same (previous_ne poised member)

theorem kept_of_wait (same : frame.previous = frame.current) {k : Nat} (kept : frame.Kept k) :
    Folding frame.code frame.current k := by
  rcases kept with waits | ⟨member, -⟩ | ⟨-, folding⟩
  · exact .inl waits
  · exact absurd same (previous_ne poised member)
  · exact folding

theorem Tidies.visit (steady : (frame.code.get? frame.current).all Node.folds = false)
    {g : Visit → Handler σ β}
    (enter : Tidies frame (Waiting frame.code frame.current) (fun _ => False) (g .enter) Q)
    (resume : ∀ c ∈ frame.code.children frame.current, c = frame.previous →
      Tidies frame (Met frame.code frame.current c) (fun _ => False) (g (.resume c)) Q) :
    Tidies frame frame.Kept frame.Settled (Handler.visit frame.current >>= g) Q := by
  intro l held
  have met : (Handler.visit frame.current : Handler σ Visit).exec l =
      (ofExcept (frame.visit frame.current) : Handler σ Visit).exec l := by
    rw [Handler.visit, exec_bind, exec_frame, andThen_ok,
      visit_eq ⟨held.code, held.current, held.previous⟩]
  rw [show ((Handler.visit frame.current >>= g).run l) = _ from exec_bind _ _ _, met]
  rcases visit_cases poised (by simp [steady]) with entered | ⟨resumed, member⟩
  · rw [entered]
    exact enter l (held.mono (fun k => kept_of_enter poised entered)
      (settled_of_enter poised entered))
  · rw [resumed]
    exact resume _ member rfl l (held.mono (fun k => kept_of_resume poised member)
      fun k settled => previous_ne poised member settled.1)

theorem Tidies.visitFolding {g : Option Visit → Handler σ β}
    (enter : Tidies frame (Waiting frame.code frame.current) (fun _ => False) (g (some .enter)) Q)
    (resume : ∀ c ∈ frame.code.children frame.current, c = frame.previous →
      Tidies frame (Met frame.code frame.current c) (fun _ => False) (g (some (.resume c))) Q)
    (wait : Tidies frame (Folding frame.code frame.current) (Convertible frame.code frame.current)
      (g none) Q) :
    Tidies frame frame.Kept frame.Settled (Handler.visitFolding frame.current >>= g) Q := by
  intro l held
  have met : (Handler.visitFolding frame.current : Handler σ (Option Visit)).exec l =
      (ofExcept (frame.visitFolding frame.current) : Handler σ (Option Visit)).exec l := by
    rw [Handler.visitFolding, exec_bind, exec_frame, andThen_ok,
      visitFolding_eq ⟨held.code, held.current, held.previous⟩]
  rw [show ((Handler.visitFolding frame.current >>= g).run l) = _ from exec_bind _ _ _, met]
  unfold Frame.visitFolding
  split
  · rename_i waited
    exact wait l (held.mono (fun k => kept_of_wait poised waited.1) fun k settled => settled.2)
  · rename_i moved
    rcases visit_cases poised fun ⟨same, below, _⟩ => moved ⟨same, below⟩ with
      entered | ⟨resumed, member⟩
    · rw [entered]
      exact enter l (held.mono (fun k => kept_of_enter poised entered)
        (settled_of_enter poised entered))
    · rw [resumed]
      exact resume _ member rfl l (held.mono (fun k => kept_of_resume poised member)
        fun k settled => previous_ne poised member settled.1)

theorem tidies_nextChild (steady : (frame.code.get? frame.current).all Node.folds = false)
    {node : Node} (found : frame.code.get? frame.current = some node)
    (gathers : node.gathers = true) (single : node.isSequence = false) :
    Tidies frame frame.Kept frame.Settled
      (nextChild frame.current : Handler σ (Option Nat)) fun next M C =>
        (∀ k, ¬ C k) ∧ match next with
          | some c => c ∈ frame.code.children frame.current ∧ ∀ k, M k →
            Waiting frame.code frame.current k ∨ Beside frame.code frame.current c k
          | none => ∀ k, M k → Waiting frame.code frame.current k ∨
            ∃ e ∈ frame.code.children frame.current, Residue frame.code e k := by
  obtain ⟨root, rooted, -⟩ := poised.rooted
  refine .visit poised steady (.readCode (.pure ⟨fun _ => id, ?_⟩)) fun c member _ =>
    .readCode (.pure ⟨fun _ => id, ?_⟩)
  · cases first : frame.code.firstChild frame.current with
    | some c => exact ⟨firstChild_mem poised first, fun k waits => .inl waits⟩
    | none => exact fun k waits => .inl waits
  · cases follows : frame.code.nextSibling c with
    | some next =>
      exact ⟨nextSibling_mem poised member follows, fun k met =>
        met.next member found gathers (rooted.lt_of_nextSibling member follows)⟩
    | none => exact fun k met => met.of_gathers member found single

end Node

end Handler

end StepScript
