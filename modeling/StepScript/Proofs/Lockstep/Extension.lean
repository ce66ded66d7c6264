import StepScript.Proofs.Lockstep.Steps
import StepScript.Proofs.Outline.Appending
import StepScript.Proofs.Units.Interleaving

/-! Units that go on.

A unit that gets one more statement at its end runs as before until its statements are finished:
its frame sees the new code only where it looks for what follows the last of them. There the
unit ends and the longer one goes on, unless a `return` has ended both.
-/

set_option autoImplicit false

namespace StepScript

variable {σ : Type} {host : Host σ}

namespace Outline

variable {tree : Rose Node} {n : Nat} (new : Rose Node)

theorem agreeAt_addLast (inside : n < tree.size) (below : n ≠ 0) :
    AgreeAt (ofRose tree) (ofRose (Rose.addLast new tree)) n where
  get := get?_addLast new inside
  parent := parent_addLast new inside
  firstChild := firstChild_addLast new inside below
  children := children_addLast new inside below
  child child member := by
    obtain ⟨path, sub, found, -, rfl⟩ := exists_path_of_ne_zero inside below
    obtain ⟨i, _, there, rfl⟩ := mem_children_place found member
    have deeper := Rose.place_lt_size there
    have inner : tree.place (path ++ [i]) ≠ 0 := by
      rw [Rose.place_snoc found]
      omega
    exact ⟨get?_addLast new deeper, children_addLast new deeper inner,
      subtree_addLast new deeper inner⟩
  above parent child := by
    obtain ⟨path, i, top, sub, above, -, found, rfl⟩ := exists_child_of_ne_zero inside below
    refine ⟨get?_addLast new ?_, firstChild_addLast_of_parent new inside child⟩
    rw [parent_place found, Rose.parentPath?_snoc] at child
    exact Option.some.inj child ▸ Rose.place_lt_size above
  size outside := by
    obtain ⟨path, sub, found, -, rfl⟩ := exists_path_of_ne_zero inside below
    cases outside.symm.trans (get?_place found)

theorem agreeAfter_addLast {previous : Nat} (inside : previous < tree.size) (below : n ≠ 0) :
    AgreeAfter (ofRose tree) (ofRose (Rose.addLast new tree)) n previous where
  parent := parent_addLast new inside
  sibling child := by
    refine nextSibling_addLast new inside ?_ ?_
    · rintro rfl
      cases child
    · rw [child]
      exact fun same => below (Option.some.inj same)

end Outline

theorem Frame.Poised.behind {frame : Frame} (poised : frame.Poised) :
    frame.previous < frame.code.size := by
  obtain ⟨root, rooted, -⟩ := poised.rooted
  cases poised.stance with
  | start root first => exact first ▸ rooted.size_pos
  | entered member inside => exact inside
  | resumed member => exact rooted.inside_of_mem poised.inside member
  | waited same => exact same ▸ poised.inside

namespace Handler

theorem code_nextStatement (n : Nat) (l : Local σ) :
    ((nextStatement n : Handler σ (Option Nat)).exec l).2.frame.code = l.frame.code := by
  simp only [nextStatement, exec_bind, Setting.exec_visit]
  rcases l.frame.visit n with e | (_ | child)
  · rfl
  · rfl
  · rfl

theorem parent_of_sequence_gives {n : Nat} {l l' : Local σ} {value : Value}
    (gives : (sequence n : Handler σ Move).exec l = (.ok (.give value), l')) :
    l.frame.code.parent n = none := by
  have code := code_nextStatement n l
  simp only [sequence, exec_bind] at gives
  rcases result : (nextStatement n : Handler σ (Option Nat)).exec l with ⟨e | (_ | child), after⟩
  · rw [result] at gives
    cases gives
  · rw [result] at gives code
    simp only [andThen_ok, endSequence, exec_bind, exec_take, exec_code, exec_ite] at gives
    split at gives
    case isTrue => cases gives
    case isFalse none =>
      rw [← code]
      exact Option.not_isSome_iff_eq_none.mp none
  · rw [result] at gives
    cases gives

theorem exec_of_isSequence (host : Host σ) {n : Nat} {l : Local σ} {content : Node}
    (found : l.frame.code.get? n = some content) (isSequence : content.isSequence = true) :
    (node host n).exec l = (sequence n : Handler σ Move).exec l := by
  rw [Handler.node, exec_bind, exec_code, andThen_ok, found]
  cases content with
  | statement s =>
    cases s with
    | unit | block => rfl
    | _ => cases isSequence
  | declare | use | operation | literal => cases isSequence

/-- Below the root only a `return` ends its frame: a block there finishes and gives nothing. -/
theorem ret_of_gives {host : Host σ} {frame : Frame} (tidy : frame.Tidy) (inner : frame.current ≠ 0)
    {s : Store σ} {l : Local σ} {value : Value}
    (gives : (node host frame.current).run ⟨frame, s⟩ = (.ok (.give value), l)) :
    frame.code.get? frame.current = some (.statement .ret) := by
  have left := tidies_node tidy.poised host tidy.outside ⟨frame, s⟩ ⟨rfl, tidy.kept, tidy.settled⟩
  rw [gives] at left
  obtain ⟨-, -, -, content, found, isSequence | rfl⟩ := left
  · have same := exec_of_isSequence host (l := ⟨frame, s⟩) found isSequence
    rw [exec, gives] at same
    have none := parent_of_sequence_gives same.symm
    obtain ⟨root, rooted, -⟩ := tidy.poised.rooted
    obtain ⟨parent, above, -⟩ := rooted.exists_parent tidy.poised.inside inner
    cases none.symm.trans above
  · exact found

/-- At the root the new child is what follows where nothing followed before. -/
theorem alike_nextStatement_addLast {tree : Rose Node} (new : Rose Node) {frame : Frame}
    (walks : frame.code = .ofRose tree) (behind : frame.previous < tree.size) :
    Follows (Eq : σ → σ → Prop) frame (.ofRose (Rose.addLast new tree))
      (fun next next' => next' = some (next.getD tree.size)) (nextStatement 0)
      (nextStatement 0) := by
  refine alike_nextStatement ?_ ?_ ?_ ?_
  · rw [walks]
    exact Outline.parent_addLast new tree.size_pos
  · rw [walks]
    exact Outline.parent_addLast new behind
  · rw [walks]
    exact Outline.firstChild_zero_addLast new tree
  · rw [walks]
    exact Outline.nextSibling_addLast_of_child new behind

end Handler

/-! ## The lowest frame -/

/-- The same frames, except that the lowest one walks over `code'` in place of `code`. -/
inductive Recoded (code code' : Code) : List Frame → List Frame → Prop where
  | lowest {frame : Frame} (walks : frame.code = code) :
    Recoded code code' [frame] [{ frame with code := code' }]
  | above (top : Frame) {below below' : List Frame} (rest : Recoded code code' below below') :
    Recoded code code' (top :: below) (top :: below')

namespace Recoded

variable {code code' : Code} {stack stack' : List Frame}

theorem ne_nil (recoded : Recoded code code' stack stack') : stack ≠ [] ∧ stack' ≠ [] := by
  cases recoded with
  | lowest => simp
  | above => simp

theorem length_eq (recoded : Recoded code code' stack stack') : stack'.length = stack.length := by
  induction recoded with
  | lowest walks => rfl
  | above top rest ih => exact congrArg Nat.succ ih

end Recoded

namespace Machine

inductive Recoded (code code' : Code) (m : Machine σ) : Machine σ → Prop where
  | withStack {stack' : List Frame} (frames : StepScript.Recoded code code' m.stack stack') :
    Recoded code code' m { m with stack := stack' }

theorem Recoded.busy {code code' : Code} {m m' : Machine σ} (recoded : m.Recoded code code' m') :
    m.isIdle = false ∧ m'.isIdle = false := by
  cases recoded with
  | withStack frames => simp [isIdle, frames.ne_nil]

section Upper

variable {code code' : Code} {m : Machine σ} {stack' : List Frame}
  (frames : StepScript.Recoded code code' m.stack stack')
include frames

theorem push_recoded (frame : Frame) (kind : FrameKind) (closure : Closure) (args : List Value) :
    push { m with stack := frame :: m.stack } kind closure args = .error (.uncaught .tooManyCalls) ∧
        push { m with stack := frame :: stack' } kind closure args =
          .error (.uncaught .tooManyCalls) ∨
      ∃ s top, push { m with stack := frame :: m.stack } kind closure args =
          .ok { m with store := s, stack := top :: frame :: m.stack } ∧
        push { m with stack := frame :: stack' } kind closure args =
          .ok { m with store := s, stack := top :: frame :: stack' } := by
  by_cases full : m.depthLimit ≤ m.stack.length + 1
  · left
    simp only [push, depth, List.length_cons, frames.length_eq, full, ↓reduceIte, and_self]
  · right
    simp only [push, depth, List.length_cons, frames.length_eq, full, ↓reduceIte]
    exact ⟨_, _, rfl, rfl⟩

theorem deliver_recoded (host : Host σ) (kind : FrameKind) (value : Value) :
    Paired (Recoded code code') Eq (deliver host m kind value)
      (deliver host { m with stack := stack' } kind value) := by
  obtain ⟨store, global, depthLimit, pending, stack, last⟩ := m
  cases frames with
  | lowest walks =>
    cases kind with
    | topLevel | function => exact ⟨rfl, .withStack (.lowest walks)⟩
    | conversion operand conversion =>
      simp only [deliver]
      rcases (host.convert conversion value).run store with ⟨e | converted, s⟩
      · exact ⟨rfl, .withStack (.lowest walks)⟩
      · exact ⟨rfl, .withStack (.lowest walks)⟩
  | above top rest =>
    cases kind with
    | topLevel | function => exact ⟨rfl, .withStack (.above _ rest)⟩
    | conversion operand conversion =>
      simp only [deliver]
      rcases (host.convert conversion value).run store with ⟨e | converted, s⟩
      · exact ⟨rfl, .withStack (.above _ rest)⟩
      · exact ⟨rfl, .withStack (.above _ rest)⟩

theorem apply_recoded (frame : Frame) (move : Move) :
    Paired (Recoded code code') Eq (apply host m frame move)
      (apply host { m with stack := stack' } frame move) := by
  cases move with
  | descend child => exact ⟨rfl, .withStack (m := { m with stack := _ }) (.above _ frames)⟩
  | finish value =>
    simp only [apply]
    rcases finishNode frame value with e | finished
    · exact ⟨rfl, .withStack frames⟩
    · exact ⟨rfl, .withStack (m := { m with stack := _ }) (.above _ frames)⟩
  | give value =>
    have delivered := deliver_recoded frames host frame.kind value
    simp only [apply]
    generalize deliver host m frame.kind value = result at delivered ⊢
    generalize deliver host { m with stack := stack' } frame.kind value = result' at delivered ⊢
    rcases result with ⟨e | _, after⟩ <;> rcases result' with ⟨e' | _, after'⟩
    · exact delivered
    · exact delivered.elim
    · exact delivered.elim
    · exact ⟨rfl, delivered.2⟩
  | call closure args =>
    simp only [apply]
    rcases push_recoded frames frame .function closure args with
      ⟨refused, refused'⟩ | ⟨s, top, pushed, pushed'⟩
    · rw [refused, refused']
      exact ⟨rfl, .withStack frames⟩
    · rw [pushed, pushed']
      rcases finishNode frame .undefined with e | finished
      · exact ⟨rfl, .withStack (m := { m with store := s, stack := _ })
          (.above _ (.above _ frames))⟩
      · exact ⟨rfl, .withStack (m := { m with store := s, stack := _ })
          (.above _ (.above _ frames))⟩
  | convert operand conversion closure =>
    simp only [apply]
    rcases push_recoded frames { frame with previous := frame.current }
      (.conversion operand conversion) closure [] with
      ⟨refused, refused'⟩ | ⟨s, top, pushed, pushed'⟩
    · rw [refused, refused']
      exact ⟨rfl, .withStack frames⟩
    · rw [pushed, pushed']
      exact ⟨rfl, .withStack (m := { m with store := s, stack := _ })
        (.above _ (.above _ frames))⟩

end Upper

theorem stepFrame_recoded {code code' : Code} (host : Host σ) (m : Machine σ) (frame : Frame)
    {below below' : List Frame} (frames : StepScript.Recoded code code' below below') :
    Paired (Recoded code code') Eq (stepFrame host m frame below)
      (stepFrame host m frame below') := by
  unfold stepFrame
  rcases (Handler.node host frame.current).run ⟨frame, m.store⟩ with ⟨e | move, after⟩
  · exact ⟨rfl, .withStack (m := { m with store := after.store, stack := below }) frames⟩
  · exact apply_recoded (m := { m with store := after.store, stack := below }) frames after.frame
      move

theorem finishNode_withCode {frame : Frame} {code : Code}
    (parent : code.parent frame.current = frame.code.parent frame.current) (value : Value) :
    finishNode { frame with code := code } value =
      (finishNode frame value).map fun done => { done with code := code } := by
  simp only [finishNode, parent]
  cases frame.code.parent frame.current with
  | none => rfl
  | some parent => rfl

theorem code_of_finishNode {frame done : Frame} {value : Value}
    (finished : finishNode frame value = .ok done) : done.code = frame.code := by
  unfold finishNode at finished
  split at finished
  · cases finished
    rfl
  · cases finished

theorem apply_lowest {code code' : Code} {m n : Machine σ} {frame : Frame} {move : Move}
    {record : Record} (only : m.stack = []) (walks : frame.code = code)
    (parent : code'.parent frame.current = code.parent frame.current)
    (stays : ∀ value, move ≠ .give value)
    (applied : apply host m frame move = (.ok record, n)) :
    ∃ n', apply host m { frame with code := code' } move = (.ok record, n') ∧
      n.Recoded code code' n' := by
  rw [← walks] at parent
  have finishes := finishNode_withCode parent
  have steady {value : Value} {done : Frame} (finished : finishNode frame value = .ok done) :
      done.code = code :=
    (code_of_finishNode finished).trans walks
  have lowest {f : Frame} (walks : f.code = code) :
      StepScript.Recoded code code' (f :: m.stack) ({ f with code := code' } :: m.stack) := by
    rw [only]
    exact .lowest walks
  -- Of the code, a move looks at the parent of the node alone, and this is the same.
  cases move with
  | descend child =>
    cases applied
    exact ⟨_, rfl, .withStack (m := { m with stack := _ }) (lowest walks)⟩
  | give value => exact absurd rfl (stays value)
  | finish value =>
    rcases finished : finishNode frame value with e | done
    · simp only [apply, finished] at applied
      cases applied
    · rw [apply_finish finished] at applied
      cases applied
      have finished' := (finishes value).trans (congrArg _ finished)
      exact ⟨_, apply_finish finished',
        .withStack (m := { m with stack := _ }) (lowest (steady finished))⟩
  | call closure args =>
    rcases Nat.lt_or_ge (m.depth + 1) m.depthLimit with room | full
    · rcases finished : finishNode frame .undefined with e | done
      · simp only [apply] at applied
        rw [push_eq { m with stack := frame :: m.stack } .function closure args room, finished]
          at applied
        cases applied
      · rw [apply_call args room finished] at applied
        cases applied
        have finished' := (finishes .undefined).trans (congrArg _ finished)
        exact ⟨_, apply_call args room finished', .withStack
          (m := { m with store := _, stack := _ }) (.above _ (lowest (steady finished)))⟩
    · rw [apply_refused (.call closure args) rfl full] at applied
      cases applied
  | convert operand conversion closure =>
    rcases Nat.lt_or_ge (m.depth + 1) m.depthLimit with room | full
    · rw [apply_convert operand conversion room] at applied
      cases applied
      exact ⟨_, apply_convert operand conversion room, .withStack
        (m := { m with store := _, stack := _ })
        (.above _ (lowest (f := { frame with previous := _ }) walks))⟩
    · rw [apply_refused (.convert operand conversion closure) rfl full] at applied
      cases applied

theorem rawStep_of_stack {m : Machine σ} {frame : Frame} {below : List Frame}
    (stack : m.stack = frame :: below) : rawStep host m = stepFrame host m frame below := by
  simp only [rawStep, stack]

/-- Only the frame of the longer unit is running, and it enters the new statement. -/
def Reaches (m : Machine σ) (tree new : Rose Node) : Prop :=
  ∃ frame, m.stack = [frame] ∧ frame.code = .ofRose (Rose.addLast new tree) ∧
    frame.current = tree.size

section Lowest

variable {tree : Rose Node} (new : Rose Node) {m n : Machine σ} {frame : Frame} {record : Record}
  (walks : frame.code = .ofRose tree) (tidy : frame.Tidy)
  (stepped : stepFrame host m frame [] = (.ok record, n))
include walks tidy stepped

/-- Below the root the lowest frame takes the same step in the longer code, unless it ends there
with a `return`. -/
theorem stepFrame_inner (inner : frame.current ≠ 0) :
    frame.code.get? frame.current = some (.statement .ret) ∧ (∃ value, record = .returned value) ∨
      ∃ n', stepFrame host m { frame with code := .ofRose (Rose.addLast new tree) } [] =
          (.ok record, n') ∧
        n.Recoded (.ofRose tree) (.ofRose (Rose.addLast new tree)) n' := by
  have inside : frame.current < tree.size := by
    have inside := tidy.poised.inside
    rwa [walks, Outline.size_ofRose] at inside
  have behind : frame.previous < tree.size := by
    have behind := tidy.poised.behind
    rwa [walks, Outline.size_ofRose] at behind
  -- A node below the root sees no difference between the two codes.
  have handled := Handler.alike_node (R := Eq)
    (walks ▸ Outline.agreeAt_addLast new inside inner)
    (walks ▸ Outline.agreeAfter_addLast new behind inner) (Host.Alike.refl host)
    ⟨frame, m.store⟩ ⟨{ frame with code := .ofRose (Rose.addLast new tree) }, m.store⟩
    ⟨rfl, rfl, rfl, rfl, .refl _⟩
  unfold stepFrame at stepped ⊢
  rcases ran : (Handler.node host frame.current).run ⟨frame, m.store⟩ with ⟨e | move, after⟩
  · rw [ran] at stepped
    cases stepped
  rw [ran] at stepped handled
  simp only at stepped ⊢
  generalize (Handler.node host frame.current).run
    ⟨{ frame with code := .ofRose (Rose.addLast new tree) }, m.store⟩ = result at handled ⊢
  rcases result with ⟨e' | move', after'⟩
  · exact handled.elim
  obtain ⟨rfl, states⟩ := handled
  simp only
  rw [states.frame, states.store.eq]
  -- Below the root only a `return` gives a value, and it ends the unit.
  by_cases gives : ∃ value, move = .give value
  · obtain ⟨value, rfl⟩ := gives
    refine .inl ⟨Handler.ret_of_gives tidy inner ran, value, ?_⟩
    simp only [apply] at stepped
    split at stepped
    · cases stepped
      rfl
    · cases stepped
  · refine .inr (apply_lowest (m := { m with store := after.store, stack := [] }) rfl
      (states.code.trans walks) ?_ (fun value same => gives ⟨value, same⟩) stepped)
    rw [states.current]
    exact Outline.parent_addLast new inside

/-- At the root it takes the same step until its statements are finished, and then it goes down to
the new one. -/
theorem stepFrame_root (root : frame.current = 0) (isSequence : tree.value.isSequence = true) :
    (∃ n', stepFrame host m { frame with code := .ofRose (Rose.addLast new tree) } [] =
        (.ok record, n') ∧ n.Recoded (.ofRose tree) (.ofRose (Rose.addLast new tree)) n') ∨
      ∃ n', stepFrame host m { frame with code := .ofRose (Rose.addLast new tree) } [] =
        (.ok (.normal .undefined), n') ∧ n'.Reaches tree new := by
  have behind : frame.previous < tree.size := by
    have behind := tidy.poised.behind
    rwa [walks, Outline.size_ofRose] at behind
  -- The roots differ in one answer: what comes after the last statement of the shorter unit.
  have next := Handler.alike_nextStatement_addLast new walks behind ⟨frame, m.store⟩
    ⟨{ frame with code := .ofRose (Rose.addLast new tree) }, m.store⟩
    ⟨rfl, rfl, rfl, rfl, .refl _⟩
  have here : (Outline.ofRose tree).get? 0 = some tree.value :=
    Outline.get?_place (Rose.at?_nil tree)
  have run : (Handler.node host frame.current).run ⟨frame, m.store⟩ =
      (Handler.sequence 0).exec ⟨frame, m.store⟩ := by
    rw [root]
    exact Handler.exec_of_isSequence host (by rw [walks]; exact here) isSequence
  have run' : (Handler.node host frame.current).run
      ⟨{ frame with code := .ofRose (Rose.addLast new tree) }, m.store⟩ =
      (Handler.sequence 0).exec
        ⟨{ frame with code := .ofRose (Rose.addLast new tree) }, m.store⟩ := by
    rw [root]
    exact Handler.exec_of_isSequence host
      ((Outline.get?_addLast new tree.size_pos).trans here) isSequence
  unfold stepFrame at stepped ⊢
  rw [run, Handler.sequence, Handler.exec_bind] at stepped
  simp only [run', Handler.sequence, Handler.exec_bind]
  simp only [Handler.exec] at stepped ⊢
  generalize (Handler.nextStatement 0 : Handler σ (Option Nat)).run ⟨frame, m.store⟩ = result
    at next stepped
  generalize (Handler.nextStatement 0 : Handler σ (Option Nat)).run
    ⟨{ frame with code := .ofRose (Rose.addLast new tree) }, m.store⟩ = result' at next ⊢
  rcases result with ⟨e | found, after⟩ <;> rcases result' with ⟨e' | found', after'⟩
  · cases stepped
  · exact next.elim
  · exact next.elim
  obtain ⟨rfl, states⟩ := next
  -- Where the shorter unit has no statement left, the longer one goes down to the new one.
  cases found with
  | none =>
    refine .inr ⟨_, rfl, { after'.frame with previous := _, current := tree.size }, rfl, ?_, rfl⟩
    exact congrArg Frame.code states.frame
  | some child =>
    refine .inl ?_
    have parent : (Outline.ofRose (Rose.addLast new tree)).parent after.frame.current =
        (Outline.ofRose tree).parent after.frame.current := by
      rw [states.current, root]
      exact Outline.parent_addLast new tree.size_pos
    have followed := apply_lowest (m := { m with store := after.store, stack := [] }) rfl
      (states.code.trans walks) parent (by simp) stepped
    rw [← states.frame, ← states.store.eq] at followed
    exact followed

end Lowest

/-! ## Runs -/

/-- In the run of the machine a `return` of the unit itself, and not of a function, is executed. -/
inductive Returns (host : Host σ) : Machine σ → Prop where
  | here {m : Machine σ} {frame : Frame} {value : Value} (runs : m.running? = some (frame, []))
    (found : frame.code.get? frame.current = some (.statement .ret))
    (gives : (step host m).1 = .ok (.returned value)) : Returns host m
  | later {m m' : Machine σ} {record : Record} (busy : m.isIdle = false)
    (stepped : step host m = (.ok record, m')) (returns : Returns host m') : Returns host m

variable {tree : Rose Node} (new : Rose Node) (isSequence : tree.value.isSequence = true)
include isSequence

/-- The longer unit takes the same step as the shorter one, unless this one ends. -/
theorem step_recoded {m m' n : Machine σ} {record : Record} (orderly : m.Orderly)
    (recoded : m.Recoded (.ofRose tree) (.ofRose (Rose.addLast new tree)) m')
    (stepped : step host m = (.ok record, n)) :
    Returns host m ∨
      (∃ n', step host m' = (.ok record, n') ∧
        n.Recoded (.ofRose tree) (.ofRose (Rose.addLast new tree)) n') ∨
      ∃ n', step host m' = (.ok (.normal .undefined), n') ∧ n'.Reaches tree new := by
  have raw := rawStep_of_ok stepped
  cases recoded with
  | withStack frames =>
    generalize stack : m.stack = lower at frames
    cases frames with
    | @lowest frame walks =>
      have tidy : frame.Tidy := orderly.tidy frame (by rw [stack]; exact List.mem_cons_self)
      rw [rawStep_of_stack stack] at raw
      by_cases root : frame.current = 0
      · rcases stepFrame_root new walks tidy raw root isSequence with
          ⟨n', same, recoded⟩ | ⟨n', entered, reaches⟩
        · exact .inr (.inl ⟨n', step_of_rawStep ((rawStep_of_stack rfl).trans same), recoded⟩)
        · exact .inr (.inr ⟨n', step_of_rawStep ((rawStep_of_stack rfl).trans entered), reaches⟩)
      · rcases stepFrame_inner new walks tidy raw root with
          ⟨found, value, rfl⟩ | ⟨n', same, recoded⟩
        · have runs : m.running? = some (frame, []) := by simp only [running?, stack]
          exact .inl (.here runs found (congrArg Prod.fst stepped))
        · exact .inr (.inl ⟨n', step_of_rawStep ((rawStep_of_stack rfl).trans same), recoded⟩)
    | @above top below below' rest =>
      have paired := stepFrame_recoded host m top rest
      rw [rawStep_of_stack stack] at raw
      rw [raw] at paired
      rcases same : stepFrame host m top below' with ⟨e | record', n'⟩
      · rw [same] at paired
        exact paired.elim
      · rw [same] at paired
        obtain ⟨rfl, recoded⟩ := paired
        exact .inr (.inl ⟨n', step_of_rawStep ((rawStep_of_stack rfl).trans same), recoded⟩)

/-- Where the shorter unit comes to its end, the longer one goes on. -/
theorem reaches_of_recoded (keeps : host.Keeps) {fuel : Nat} {m m' after : Machine σ}
    {value : Value} (orderly : m.Orderly)
    (recoded : m.Recoded (.ofRose tree) (.ofRose (Rose.addLast new tree)) m')
    (ran : execute host fuel m = some (.ok value, after)) (straight : ¬ Returns host m) :
    ∃ n : Machine σ, (m'.behaviour host).Follows (n.behaviour host) ∧ n.Reaches tree new := by
  -- By induction on the steps of the shorter unit, which the longer one makes as well.
  induction fuel generalizing m m' with
  | zero =>
    rw [execute_zero recoded.busy.1] at ran
    cases ran
  | succ fuel ih =>
    have busy := recoded.busy
    rw [execute_succ fuel busy.1] at ran
    rcases stepped : step host m with ⟨e | record, n⟩
    · rw [stepped] at ran
      cases ran
    rw [stepped] at ran
    rcases step_recoded new isSequence orderly recoded stepped with
      returns | ⟨n', same, recoded'⟩ | ⟨n', entered, reaches⟩
    · exact absurd returns straight
    · have orderly' : n.Orderly := by
        have orderly' := orderly_step keeps orderly
        rwa [stepped] at orderly'
      obtain ⟨n'', follows, reaches⟩ := ih orderly' recoded' ran
        fun returns => straight (.later busy.1 stepped returns)
      refine ⟨n'', ?_, reaches⟩
      rw [behaviour_eq_delay host busy.2, same]
      exact follows.delay
    · refine ⟨n', ?_, reaches⟩
      rw [behaviour_eq_delay host busy.2, entered]
      exact (Behaviour.Follows.refl _).delay

omit isSequence

theorem running?_started (m : Machine σ) : m.started.running? = m.running? := by
  unfold started
  split
  · next stack waits => simp only [running?, stack, waits]
  · rfl

theorem isIdle_started (m : Machine σ) : m.started.isIdle = m.isIdle := by
  unfold started
  split
  · next stack waits => simp [isIdle, stack, waits]
  · rfl

theorem behaviour_started (host : Host σ) (m : Machine σ) :
    m.started.behaviour host = m.behaviour host := by
  cases idle : m.isIdle with
  | true =>
    obtain ⟨stack, pending⟩ : m.stack = [] ∧ m.pending = [] := by simpa [isIdle] using idle
    have same : m.started = m := by simp only [started, stack, pending]
    rw [same]
  | false =>
    rw [behaviour_eq_delay host idle,
      behaviour_eq_delay host ((isIdle_started m).trans idle), step_started]

theorem Returns.of_started {m : Machine σ} (returns : Returns host m.started) :
    Returns host m := by
  generalize begun : m.started = m' at returns
  cases returns with
  | here runs found gives =>
    subst begun
    rw [running?_started] at runs
    rw [step_started] at gives
    exact .here runs found gives
  | later busy stepped returns =>
    subst begun
    rw [isIdle_started] at busy
    rw [step_started] at stepped
    exact .later busy stepped returns

theorem Returns.of_alike {τ : Type} {R : σ → τ → Prop} {host' : Host τ}
    (hosts : host.Alike R host') {m : Machine σ} {m' : Machine τ} (machines : m.Alike R m')
    (returns : Returns host' m') : Returns host m := by
  induction returns generalizing m with
  | @here m' frame value runs found gives =>
    have same : m.running? = m'.running? := by
      cases machines with
      | withHost related => rfl
    exact .here (same.trans runs) found ((step_alike hosts machines).fst_eq.symm.trans gives)
  | @later m' n' record busy stepped returns ih =>
    have stepped' := step_alike hosts machines
    rw [stepped] at stepped'
    rcases same : step host m with ⟨e | record', n⟩
    · rw [same] at stepped'
      exact stepped'.elim
    · rw [same] at stepped'
      exact .later (machines.idle.symm.trans busy) same (ih stepped'.2)

theorem Returns.exists_return (keeps : host.Keeps) {m : Machine σ} (orderly : m.Orderly)
    (returns : Returns host m) :
    ∃ code ∈ m.unfinished, ∃ n, code.get? n = some (.statement .ret) := by
  -- By induction on the steps: what is unfinished after one has been so before it.
  induction returns with
  | @here m frame value runs found gives =>
    refine ⟨frame.code, ?_, frame.current, found⟩
    rw [← unfinished_started, unfinished, current?, stack_of_running runs]
    exact List.mem_append_left _ (List.mem_singleton_self _)
  | @later m m' record busy stepped returns ih =>
    have orderly' : m'.Orderly := by
      have orderly' := orderly_step keeps orderly
      rwa [stepped] at orderly'
    obtain ⟨code, member, has⟩ := ih orderly'
    refine ⟨code, ?_, has⟩
    rcases unfinished_step keeps orderly busy stepped with ⟨-, same⟩ | ⟨unit, _, only, -, same⟩
    · rwa [same] at member
    · rw [unfinished_of_stack only] at member
      rw [same]
      exact List.mem_cons_of_mem unit member

/-- A unit that comes to its end, and not to a `return`, goes on to a statement put behind its own
ones. -/
theorem reaches_of_execute (keeps : host.Keeps) {m : Machine σ} (idle : m.isIdle = true)
    (bodies : m.store.Bodies) (shaped : Shaped tree) (isUnit : tree.value = .statement .unit)
    {fuel : Nat} {value : Value} {after : Machine σ}
    (ran : execute host fuel (m.feed (.ofRose tree)) = some (.ok value, after))
    (straight : ¬ Returns host (m.feed (.ofRose tree))) :
    ∃ n : Machine σ, ((m.feed (.ofRose (Rose.addLast new tree))).behaviour host).Follows
        (n.behaviour host) ∧ n.Reaches tree new := by
  obtain ⟨store, global, depthLimit, pending, stack, last⟩ := m
  obtain ⟨rfl, rfl⟩ : stack = [] ∧ pending = [] := by simpa [isIdle] using idle
  have tidy : (Frame.start .topLevel global (.ofRose tree)).Tidy :=
    .start _ _ ⟨tree, rfl, shaped, isUnit⟩ (.inl rfl)
  have orderly : (feed ⟨store, global, depthLimit, [], [], last⟩ (.ofRose tree)).started.Orderly :=
    ⟨⟨bodies, List.forall_mem_singleton.mpr tidy.poised, fun _ none => by cases none⟩,
      List.forall_mem_singleton.mpr tidy, rfl⟩
  rw [← behaviour_started]
  have isSequence : tree.value.isSequence = true := by rw [isUnit]; rfl
  have ran' := (congrArg (·.within fuel) (behaviour_started host _)).trans ran
  exact reaches_of_recoded new isSequence keeps orderly (.withStack (.lowest rfl)) ran'
    fun returns => straight (.of_started returns)

end Machine

end StepScript
