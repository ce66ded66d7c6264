import StepScript.Proofs.Machine.Safety
import StepScript.Proofs.Stack.Nodes

/-! The frames of a machine stay in order.

A frame is `Tidy` if it keeps only what its walk left waiting. A stack is `Linked`
if a unit is at its bottom and every other frame stands on one that waits for it:
on the parent of a call, or on a node that folds. One step of a machine works in
its running frame, pushes a frame that the one below waits for, or takes the
running frame away and hands its value to the one below, so tidy frames and
linked stacks stay so.
-/

set_option autoImplicit false

namespace StepScript

variable {σ : Type}

/-- A frame keeps only what waits where it stands, and it keeps the value of a child that has just
finished. -/
structure Frame.Tidy (frame : Frame) : Prop where
  poised : frame.Poised
  reached : Reached frame.code frame.current
  kept : ∀ k, (frame.memo.find? k).isSome = true → frame.Kept k
  settled : ∀ k, (frame.converted.find? k).isSome = true → frame.Settled k
  finished : frame.previous ∈ frame.code.children frame.current →
    Reached frame.code frame.previous ∧ (frame.memo.find? frame.previous).isSome = true

structure Frame.Same (frame frame' : Frame) : Prop where
  kind : frame'.kind = frame.kind
  scope : frame'.scope = frame.scope
  code : frame'.code = frame.code

/-- A frame that waits for one of a given kind on top of it: on the parent of the
call that it has made, or on the node whose operand a hook converts. -/
def Frame.Awaits (caller : Frame) : FrameKind → Prop
  | .topLevel => False
  | .function =>
    caller.code.get? caller.previous = some (.operation .call) ∧
      caller.code.parent caller.previous = some caller.current
  | .conversion operand _ =>
    caller.previous = caller.current ∧
      (caller.code.get? caller.current).any Node.folds = true ∧
      Convertible caller.code caller.current operand

/-- A unit is at the bottom, and every other frame is waited for by the one below. -/
def Linked : List Frame → Prop
  | [] => True
  | [bottom] => bottom.kind = .topLevel
  | top :: caller :: rest => caller.Awaits top.kind ∧ Linked (caller :: rest)

namespace Frame.Tidy

variable {frame : Frame}

theorem start {s : Statement} {code : Code} (kind : FrameKind) (scope : Value)
    (rooted : code.Rooted s) (which : s = .unit ∨ s = .block) :
    (Frame.start kind scope code).Tidy := by
  refine ⟨.start kind scope rooted which, .root, fun k kept => ?_, fun k kept => ?_,
    fun member => ?_⟩
  · cases kept
  · cases kept
  · have := (rooted.child_bounds member).1
    exact absurd this (Nat.lt_irrefl 0)

theorem outside (tidy : frame.Tidy)
    (found : frame.code.get? frame.current = some (.operation .functionLiteral)) :
    frame.previous ∉ frame.code.children frame.current := by
  intro member
  obtain ⟨root, rooted, -⟩ := tidy.poised.rooted
  exact ((tidy.finished member).1.parent rooted member).2 found

section Moves

variable {M C : Nat → Prop} {l : Local σ} (tidy : frame.Tidy) (held : l.Holds frame M C)
include tidy held

theorem descend {child : Nat} (legal : (Move.descend child).Legal frame)
    (leaves : (Move.descend child).Leaves frame M C) :
    { l.frame with previous := l.frame.current, current := child }.Tidy := by
  obtain ⟨evaluated, through, memo, converted⟩ := leaves
  obtain ⟨root, rooted, -⟩ := tidy.poised.rooted
  have member : child ∈ frame.code.children frame.current := legal
  have moved : { l.frame with previous := l.frame.current, current := child }.Poised :=
    (tidy.poised.descend member).congr held.code rfl held.current
  refine ⟨moved, ?_, fun k kept => .inl ?_, fun k kept => ?_, fun below => ?_⟩
  · show Reached l.frame.code child
    rw [held.code]
    exact .child tidy.reached member through evaluated
  · show Waiting l.frame.code child k
    rw [held.code]
    rcases memo k (held.memo k kept) with waits | beside
    · exact .above member waits
    · exact .beside member beside
  · exact (converted k (held.converted k kept)).elim
  · -- The parent of a node is not below it.
    have up : l.frame.current ∈ l.frame.code.children child := below
    rw [held.code, held.current] at up
    have := (rooted.child_bounds up).1
    have := (rooted.child_bounds member).1
    omega

theorem finish {value : Value} {done : Frame}
    (memo : ∀ k, M k → Waiting frame.code frame.current k ∨ Residue frame.code frame.current k)
    (converted : ∀ k, ¬ C k) (finished : Machine.finishNode l.frame value = .ok done) :
    done.Tidy ∧ frame.Same done ∧ done.previous = frame.current ∧
      frame.code.parent frame.current = some done.current := by
  obtain ⟨root, rooted, -⟩ := tidy.poised.rooted
  have steady : l.frame.Poised := tidy.poised.congr held.code held.current held.previous
  unfold Machine.finishNode at finished
  split at finished
  case h_2 => cases finished
  case h_1 parent above =>
    obtain ⟨done', same, poised⟩ := steady.finish value (by rw [above]; rfl)
    unfold Machine.finishNode at same
    rw [above] at same
    cases finished
    cases same
    rw [held.code, held.current] at above
    have inner : frame.current ≠ 0 := by
      intro root
      rw [root] at above
      cases above
    obtain ⟨a, same, -, member⟩ := rooted.exists_parent tidy.poised.inside inner
    cases above.symm.trans same
    refine ⟨⟨poised, ?_, fun k kept => .inr (.inl ⟨?_, ?_⟩), fun k kept => ?_, fun _ => ⟨?_, ?_⟩⟩,
      ⟨held.kind, held.scope, held.code⟩, held.current, above⟩
    · show Reached l.frame.code parent
      rw [held.code]
      exact (tidy.reached.parent rooted member).1
    · show l.frame.current ∈ l.frame.code.children parent
      rw [held.code, held.current]
      exact member
    · show Met l.frame.code parent l.frame.current k
      simp only [Frame.keep, NodeMap.find?_insert] at kept
      rw [held.code, held.current]
      split at kept
      · rename_i same
        rw [same, held.current]
        exact .inr (.inr (.value tidy.reached.evaluated))
      · rcases memo k (held.memo k kept) with waits | residue
        · rcases waits.parent rooted member with waits | beside
          · exact .inl waits
          · exact .inr (.inl beside)
        · exact .inr (.inr residue)
    · exact (converted k (held.converted k kept)).elim
    · show Reached l.frame.code l.frame.current
      rw [held.code, held.current]
      exact tidy.reached
    · simp only [Frame.keep, NodeMap.find?_insert, if_true, Option.isSome_some]

theorem wait {operand : Nat} {conversion : Conversion} {closure : Closure}
    (legal : (Move.convert operand conversion closure).Legal frame)
    (leaves : (Move.convert operand conversion closure).Leaves frame M C) :
    { l.frame with previous := l.frame.current }.Tidy ∧
      { l.frame with previous := l.frame.current }.Awaits (.conversion operand conversion) := by
  obtain ⟨below, folds, -⟩ := legal
  obtain ⟨convertible, memo, converted⟩ := leaves
  have moved : { l.frame with previous := l.frame.current }.Poised :=
    (tidy.poised.wait below folds).congr held.code held.current held.current
  refine ⟨⟨moved, ?_, fun k kept => .inr (.inr ⟨rfl, ?_⟩), fun k kept => ⟨rfl, ?_⟩,
    fun member => ?_⟩, rfl, ?_, ?_⟩
  · show Reached l.frame.code l.frame.current
    rw [held.code, held.current]
    exact tidy.reached
  · show Folding l.frame.code l.frame.current k
    rw [held.code, held.current]
    exact memo k (held.memo k kept)
  · show Convertible l.frame.code l.frame.current k
    rw [held.code, held.current]
    exact converted k (held.converted k kept)
  · exact absurd rfl (Handler.previous_ne moved member)
  · show (l.frame.code.get? l.frame.current).any Node.folds = true
    rw [held.code, held.current]
    obtain ⟨node, found, isFold⟩ := convertible.folds
    rw [found, Option.any_some, isFold]
  · show Convertible l.frame.code l.frame.current operand
    rw [held.code, held.current]
    exact convertible

end Moves

theorem keep (tidy : frame.Tidy) (awaits : frame.Awaits .function) (value : Value) :
    (frame.keep frame.previous value).Tidy := by
  obtain ⟨root, rooted, -⟩ := tidy.poised.rooted
  have member : frame.previous ∈ frame.code.children frame.current :=
    (rooted.mem_children_iff tidy.poised.inside (frame.code.inside_of_get? awaits.1)).mpr awaits.2
  refine ⟨tidy.poised.congr rfl rfl rfl, tidy.reached, fun k kept => ?_, tidy.settled,
    fun _ => ⟨(tidy.finished member).1, ?_⟩⟩
  · simp only [Frame.keep, NodeMap.find?_insert] at kept
    split at kept
    · rename_i same
      subst same
      exact .inr (.inl ⟨member, .inr (.inr (.value (tidy.finished member).1.evaluated))⟩)
    · exact tidy.kept k kept
  · simp only [Frame.keep, NodeMap.find?_insert, if_true, Option.isSome_some]

theorem settle (tidy : frame.Tidy) {operand : Nat} {conversion : Conversion}
    (awaits : frame.Awaits (.conversion operand conversion)) (value : Value) :
    { frame with converted := frame.converted.insert operand value }.Tidy := by
  obtain ⟨same, -, convertible⟩ := awaits
  refine ⟨tidy.poised.congr rfl rfl rfl, tidy.reached, tidy.kept, fun k kept => ?_, tidy.finished⟩
  simp only [NodeMap.find?_insert] at kept
  split at kept
  · rename_i isOperand
    subst isOperand
    exact ⟨same, convertible⟩
  · exact tidy.settled k kept

end Frame.Tidy

/-! ## Moves -/

def Move.starts : Move → Bool
  | .call _ _ | .convert _ _ _ => true
  | .descend _ | .finish _ | .give _ => false

namespace Handler

theorem store_sequence (n : Nat) (l : Local σ) :
    ((sequence n : Handler σ Move).exec l).2.store = l.store := by
  have next : ((nextStatement n : Handler σ (Option Nat)).exec l).2.store = l.store := by
    simp only [nextStatement, exec_bind, Setting.exec_visit]
    rcases l.frame.visit n with e | (_ | child)
    · rfl
    · rfl
    · rfl
  have last (l : Local σ) : ((endSequence n : Handler σ Move).exec l).2.store = l.store := by
    simp only [endSequence, exec_bind, exec_take, andThen_ok, exec_code, exec_ite, exec_frame]
    split
    · rfl
    · split
      · rfl
      · rfl
      · rfl
  simp only [sequence, exec_bind]
  rcases result : (nextStatement n : Handler σ (Option Nat)).exec l with ⟨e | (_ | c), after⟩
  · rw [result] at next
    exact next
  · rw [result] at next
    exact (last after).trans next
  · rw [result] at next
    exact next

theorem store_returnValue (n : Nat) (l : Local σ) :
    ((returnValue n : Handler σ Move).exec l).2.store = l.store := by
  simp only [returnValue, exec_bind, Setting.exec_visit]
  rcases l.frame.visit n with e | (_ | child)
  · rfl
  · simp only [exec_ofExcept_ok, andThen_ok, exec_bind, exec_code]
    cases l.frame.code.firstChild n with
    | some operand => rfl
    | none => rfl
  · rfl

theorem store_of_give (host : Host σ) {frame : Frame} (l : Local σ) {node' : Node}
    (same : l.frame.code = frame.code) (found : frame.code.get? frame.current = some node')
    (gives : node'.isSequence = true ∨ node' = .statement .ret) :
    ((node host frame.current).exec l).2.store = l.store := by
  rw [Handler.node, exec_bind, exec_code, andThen_ok, same, found]
  rcases gives with sequence | rfl
  · cases node' with
    | statement s =>
      cases s with
      | unit => exact store_sequence _ l
      | block => exact store_sequence _ l
      | _ => cases sequence
    | declare | use | operation | literal => cases sequence
  · exact store_returnValue _ l

end Handler

namespace Machine

variable {host : Host σ}

theorem deliver_ne_tooManyCalls (host : Host σ) (m : Machine σ) (kind : FrameKind) (value : Value) :
    (deliver host m kind value).1 ≠ .error (.uncaught .tooManyCalls) := by
  unfold deliver
  split
  · split
    · simp
    · rename_i e _ _
      cases e <;> simp [EvalError.ofValueError]
  · simp
  · simp

theorem push_eq (m : Machine σ) (kind : FrameKind) (closure : Closure) (args : List Value)
    (room : m.depth < m.depthLimit) :
    m.push kind closure args =
      .ok { m with
        store := (m.store.newObject ⟨closure.scope, bindParams closure.params args []⟩).2
        stack := Frame.start kind (.object m.store.objects.size) closure.body :: m.stack } :=
  if_neg (Nat.not_le.mpr room)

theorem push_refused (m : Machine σ) (kind : FrameKind) (closure : Closure) (args : List Value)
    (full : m.depthLimit ≤ m.depth) :
    m.push kind closure args = .error (.uncaught .tooManyCalls) :=
  if_pos full

section Apply

variable {m : Machine σ} {frame done : Frame} {value : Value} {closure : Closure}

theorem apply_finish (finished : finishNode frame value = .ok done) :
    apply host m frame (.finish value) =
      (.ok (.normal value), { m with stack := done :: m.stack }) := by
  simp only [apply, finished]

theorem apply_call (args : List Value) (room : m.depth + 1 < m.depthLimit)
    (finished : finishNode frame .undefined = .ok done) :
    apply host m frame (.call closure args) =
      (.ok (.normal .undefined), { m with
        store := (m.store.newObject ⟨closure.scope, bindParams closure.params args []⟩).2
        stack := Frame.start .function (.object m.store.objects.size) closure.body ::
          done :: m.stack }) := by
  have pushed := push_eq { m with stack := frame :: m.stack } .function closure args room
  simp only [apply]
  rw [pushed, finished]

theorem apply_convert (operand : Nat) (conversion : Conversion)
    (room : m.depth + 1 < m.depthLimit) :
    apply host m frame (.convert operand conversion closure) =
      (.ok (.normal .undefined), { m with
        store := (m.store.newObject ⟨closure.scope, bindParams closure.params [] []⟩).2
        stack := Frame.start (.conversion operand conversion) (.object m.store.objects.size)
          closure.body :: { frame with previous := frame.current } :: m.stack }) := by
  have pushed := push_eq { m with stack := { frame with previous := frame.current } :: m.stack }
    (.conversion operand conversion) closure [] room
  simp only [apply]
  rw [pushed]

theorem apply_refused (move : Move) (starts : move.starts = true)
    (full : m.depthLimit ≤ m.depth + 1) :
    apply host m frame move = (.error (.uncaught .tooManyCalls), m) := by
  cases move with
  | call closure args =>
    simp only [apply]
    rw [push_refused { m with stack := frame :: m.stack } .function closure args full]
  | convert operand conversion closure =>
    simp only [apply]
    rw [push_refused { m with stack := { frame with previous := frame.current } :: m.stack }
      (.conversion operand conversion) closure [] full]
  | descend | finish | give => cases starts

end Apply

theorem exists_finishNode {frame : Frame} (value : Value)
    (below : (frame.code.parent frame.current).isSome = true) :
    ∃ done, finishNode frame value = .ok done := by
  obtain ⟨parent, above⟩ := Option.isSome_iff_exists.mp below
  unfold finishNode
  rw [above]
  exact ⟨_, rfl⟩

theorem apply_tooManyCalls (host : Host σ) (m : Machine σ) {frame : Frame} {move : Move}
    (legal : move.Legal frame) :
    (apply host m frame move).1 = .error (.uncaught .tooManyCalls) ↔
      move.starts = true ∧ m.depthLimit ≤ m.depth + 1 := by
  cases move with
  | descend child => simp [apply, Move.starts]
  | finish value =>
    obtain ⟨done, finished⟩ := exists_finishNode value legal
    simp [apply_finish finished, Move.starts]
  | give value =>
    have other := deliver_ne_tooManyCalls host m frame.kind value
    simp only [apply]
    rcases delivered : deliver host m frame.kind value with ⟨e | _, after⟩
    · rw [delivered] at other
      simpa [Move.starts] using other
    · simp [Move.starts]
  | call closure args =>
    rcases Nat.lt_or_ge (m.depth + 1) m.depthLimit with room | full
    · obtain ⟨done, finished⟩ := exists_finishNode .undefined legal.1
      simp [apply_call args room finished, room]
    · simp [apply_refused (.call closure args) rfl full, Move.starts, full]
  | convert operand conversion closure =>
    rcases Nat.lt_or_ge (m.depth + 1) m.depthLimit with room | full
    · simp [apply_convert operand conversion room, room]
    · simp [apply_refused (.convert operand conversion closure) rfl full, Move.starts, full]

/-! ## Steps -/

def running? (m : Machine σ) : Option (Frame × List Frame) :=
  match m.stack, m.pending with
  | frame :: below, _ => some (frame, below)
  | [], code :: _ => some (.start .topLevel m.global code, [])
  | [], [] => none

end Machine

/-- `caller'` is `caller` with the value that a frame of some kind gave: under the
call that made it, or converted and under the operand that it converts. -/
def Frame.Receives (host : Host σ) (caller : Frame) (kind : FrameKind) (value : Value)
    (s s' : Store σ) (caller' : Frame) : Prop :=
  match kind with
  | .topLevel => False
  | .function =>
    s' = s ∧ caller' = { caller with memo := caller.memo.insert caller.previous value }
  | .conversion operand conversion => ∃ converted,
    (host.convert conversion value).run s = (.ok converted, s') ∧
      caller' = { caller with converted := caller.converted.insert operand converted }

namespace Machine

variable {host : Host σ}

inductive Transition (host : Host σ) (s : Store σ) (depthLimit : Nat) (frame : Frame)
    (below : List Frame) : Record → Machine σ → Prop where
  | worked {m : Machine σ} {value : Value} {frame' : Frame} (same : frame.Same frame')
    (tidy : frame'.Tidy) (stack : m.stack = frame' :: below)
    (limit : m.depthLimit = depthLimit) (moved : frame'.previous ≠ frame'.current) :
    Transition host s depthLimit frame below (.normal value) m
  | pushed {m : Machine σ} {kind : FrameKind} {scope : Value} {body : Code} {caller : Frame}
    (room : below.length + 1 < depthLimit) (same : frame.Same caller)
    (origin : caller.previous = frame.current) (awaits : caller.Awaits kind) (tidy : caller.Tidy)
    (rooted : body.Rooted .block)
    (stack : m.stack = Frame.start kind scope body :: caller :: below)
    (limit : m.depthLimit = depthLimit)
    (starts : ∃ move, ((Handler.node host frame.current).run ⟨frame, s⟩).1 = .ok move ∧
      move.starts = true) :
    Transition host s depthLimit frame below (.normal .undefined) m
  | ended {m : Machine σ} {value : Value} (kind : frame.kind = .topLevel) (only : below = [])
    (stack : m.stack = []) (limit : m.depthLimit = depthLimit) :
    Transition host s depthLimit frame below (.returned value) m
  | delivered {m : Machine σ} {value : Value} {caller caller' : Frame} {rest : List Frame}
    (whole : below = caller :: rest)
    (receives : caller.Receives host frame.kind value s m.store caller')
    (stack : m.stack = caller' :: rest) (limit : m.depthLimit = depthLimit) :
    Transition host s depthLimit frame below (.returned value) m

theorem transition_give {m m' : Machine σ} {frame : Frame} {value : Value}
    (linked : Linked (frame :: m.stack)) {kind : FrameKind} (same : kind = frame.kind)
    (delivered : deliver host m kind value = (.ok (), m')) :
    Transition host m.store m.depthLimit frame m.stack (.returned value) m' := by
  subst same
  cases whole : m.stack with
  | nil =>
    rw [whole] at linked
    unfold deliver at delivered
    rw [whole, linked] at delivered
    cases delivered
    exact .ended linked rfl rfl rfl
  | cons caller rest =>
    rw [whole] at linked
    have awaits := linked.1
    unfold deliver at delivered
    rw [whole] at delivered
    cases isKind : frame.kind with
    | topLevel =>
      rw [isKind] at awaits
      exact awaits.elim
    | function =>
      rw [isKind] at delivered
      cases delivered
      exact .delivered rfl (by rw [isKind]; exact ⟨rfl, rfl⟩) rfl rfl
    | conversion operand conversion =>
      rw [isKind] at delivered
      simp only at delivered
      rcases run : (host.convert conversion value).run m.store with ⟨e | converted, store⟩
      · rw [run] at delivered
        cases delivered
      · rw [run] at delivered
        cases delivered
        exact .delivered rfl (by rw [isKind]; exact ⟨converted, run, rfl⟩) rfl rfl

section Moves

variable {m m' : Machine σ} {frame : Frame} {s : Store σ} {record : Record} {l : Local σ}
  {M C : Nat → Prop} (tidy : frame.Tidy) (held : l.Holds frame M C)
include tidy held

theorem transition_descend {child : Nat} (legal : (Move.descend child).Legal frame)
    (leaves : (Move.descend child).Leaves frame M C)
    (applied : apply host m l.frame (.descend child) = (.ok record, m')) :
    Transition host s m.depthLimit frame m.stack record m' := by
  obtain ⟨root, rooted, -⟩ := tidy.poised.rooted
  have same : frame.Same { l.frame with previous := l.frame.current, current := child } :=
    ⟨held.kind, held.scope, held.code⟩
  cases applied
  refine .worked same (tidy.descend held legal leaves) rfl rfl ?_
  show l.frame.current ≠ child
  rw [held.current]
  exact Nat.ne_of_lt (rooted.child_bounds legal).1

theorem transition_finish {value : Value} (legal : (Move.finish value).Legal frame)
    (leaves : (Move.finish value).Leaves frame M C)
    (applied : apply host m l.frame (.finish value) = (.ok record, m')) :
    Transition host s m.depthLimit frame m.stack record m' := by
  obtain ⟨root, rooted, -⟩ := tidy.poised.rooted
  obtain ⟨done, finished⟩ := exists_finishNode value (held.below legal)
  obtain ⟨ready, alike, origin, above⟩ := tidy.finish held leaves.1 leaves.2 finished
  rw [apply_finish finished] at applied
  cases applied
  refine .worked alike ready rfl rfl ?_
  rw [origin]
  exact Nat.ne_of_gt (rooted.lt_of_parent tidy.poised.inside above)

theorem transition_call {closure : Closure} {args : List Value}
    (legal : (Move.call closure args).Legal frame)
    (leaves : (Move.call closure args).Leaves frame M C)
    (chosen : ((Handler.node host frame.current).run ⟨frame, s⟩).1 = .ok (.call closure args))
    (applied : apply host m l.frame (.call closure args) = (.ok record, m')) :
    Transition host s m.depthLimit frame m.stack record m' := by
  obtain ⟨inner, rooted⟩ := legal
  obtain ⟨called, memo, converted⟩ := leaves
  obtain ⟨done, finished⟩ := exists_finishNode .undefined (held.below inner)
  obtain ⟨ready, alike, origin, above⟩ :=
    tidy.finish held (fun k kept => .inl (memo k kept)) converted finished
  rcases Nat.lt_or_ge (m.depth + 1) m.depthLimit with room | full
  · rw [apply_call args room finished] at applied
    cases applied
    refine .pushed room alike origin ?_ ready rooted rfl rfl ⟨_, chosen, rfl⟩
    exact ⟨by rw [alike.code, origin, called], by rw [alike.code, origin, above]⟩
  · rw [apply_refused (.call closure args) rfl full] at applied
    cases applied

theorem transition_convert {operand : Nat} {conversion : Conversion} {closure : Closure}
    (legal : (Move.convert operand conversion closure).Legal frame)
    (leaves : (Move.convert operand conversion closure).Leaves frame M C)
    (chosen : ((Handler.node host frame.current).run ⟨frame, s⟩).1 =
      .ok (.convert operand conversion closure))
    (applied : apply host m l.frame (.convert operand conversion closure) = (.ok record, m')) :
    Transition host s m.depthLimit frame m.stack record m' := by
  obtain ⟨ready, awaits⟩ := tidy.wait held legal leaves
  rcases Nat.lt_or_ge (m.depth + 1) m.depthLimit with room | full
  · rw [apply_convert operand conversion room] at applied
    cases applied
    have same : frame.Same { l.frame with previous := l.frame.current } :=
      ⟨held.kind, held.scope, held.code⟩
    exact .pushed room same held.current awaits ready legal.2.2 rfl rfl ⟨_, chosen, rfl⟩
  · rw [apply_refused (.convert operand conversion closure) rfl full] at applied
    cases applied

end Moves

theorem transition_stepFrame (keeps : host.Keeps) {m m' : Machine σ} {frame : Frame}
    {below : List Frame} {record : Record} (bodies : m.store.Bodies) (tidy : frame.Tidy)
    (linked : Linked (frame :: below)) (stepped : stepFrame host m frame below = (.ok record, m')) :
    Transition host m.store m.depthLimit frame below record m' := by
  have fine := Handler.safe_node tidy.poised keeps ⟨frame, m.store⟩ ⟨rfl, rfl, rfl, bodies⟩
  have left := Handler.tidies_node tidy.poised host tidy.outside ⟨frame, m.store⟩
    ⟨rfl, tidy.kept, tidy.settled⟩
  unfold stepFrame at stepped
  rcases run : (Handler.node host frame.current).run ⟨frame, m.store⟩ with ⟨e | move, l⟩
  · rw [run] at stepped
    cases stepped
  · rw [run] at fine left stepped
    obtain ⟨-, legal⟩ := fine
    obtain ⟨M, C, held, leaves⟩ := left
    have chosen : ((Handler.node host frame.current).run ⟨frame, m.store⟩).1 = .ok move := by
      rw [run]
    simp only at stepped
    cases move with
    | descend child => exact transition_descend tidy held legal leaves stepped
    | finish value => exact transition_finish tidy held legal leaves stepped
    | give value =>
      obtain ⟨node, found, gives⟩ := leaves
      have still := Handler.store_of_give host ⟨frame, m.store⟩ rfl found gives
      rw [Handler.exec, run] at still
      simp only [apply] at stepped
      rcases delivered : deliver host { m with store := l.store, stack := below } l.frame.kind value
        with ⟨e | _, after⟩
      · rw [delivered] at stepped
        cases stepped
      · rw [delivered] at stepped
        cases stepped
        have given := transition_give (m := { m with store := l.store, stack := below }) linked
          held.kind delivered
        rw [show l.store = m.store from still] at given
        exact given
    | call closure args => exact transition_call tidy held legal leaves chosen stepped
    | convert operand conversion closure =>
      exact transition_convert tidy held legal leaves chosen stepped

theorem step_fst (host : Host σ) (m : Machine σ) : (step host m).1 = (rawStep host m).1 := by
  unfold step
  rcases rawStep host m with ⟨e | record, after⟩
  · rfl
  · rfl

theorem rawStep_of_step {m : Machine σ} {record : Record} (stepped : (step host m).1 = .ok record) :
    rawStep host m = (.ok record, (step host m).2) := by
  unfold step at stepped ⊢
  rcases result : rawStep host m with ⟨e | record', after⟩
  · rw [result] at stepped
    cases stepped
  · rw [result] at stepped
    cases stepped
    rfl

theorem step_of_rawStep {m m' : Machine σ} {record : Record}
    (raw : rawStep host m = (.ok record, m')) : step host m = (.ok record, m') := by
  rw [step, raw]

theorem stack_of_error {m : Machine σ} {e : EvalError} (stepped : (step host m).1 = .error e) :
    (step host m).2.stack = [] := by
  unfold step at stepped ⊢
  rcases result : rawStep host m with ⟨e | record, after⟩
  · rfl
  · rw [result] at stepped
    cases stepped

theorem pending_of_error {m : Machine σ} {e : EvalError}
    (stepped : (step host m).1 = .error e) : (step host m).2.pending = [] := by
  unfold step at stepped ⊢
  rcases result : rawStep host m with ⟨e | record, after⟩
  · rfl
  · rw [result] at stepped
    cases stepped

theorem step_of_idle {m : Machine σ} (idle : m.running? = none) : (step host m).2 = m := by
  cases stack : m.stack with
  | nil =>
    cases waits : m.pending with
    | nil => simp only [step, rawStep, stack, waits]
    | cons => simp [running?, stack, waits] at idle
  | cons => simp [running?, stack] at idle

/-- A step that does not fail is a transition of the running frame. -/
theorem transition_step (keeps : host.Keeps) {m : Machine σ} {frame : Frame} {below : List Frame}
    {record : Record} (bodies : m.store.Bodies) (tidy : frame.Tidy)
    (linked : Linked (frame :: below)) (running : m.running? = some (frame, below))
    (stepped : (step host m).1 = .ok record) :
    Transition host m.store m.depthLimit frame below record (step host m).2 := by
  unfold running? at running
  have raw := rawStep_of_step stepped
  unfold rawStep at raw
  split at running
  case h_1 whole =>
    cases running
    rw [whole] at raw
    exact transition_stepFrame keeps bodies tidy linked raw
  case h_2 code pending none waits =>
    cases running
    rw [none, waits] at raw
    exact transition_stepFrame (m := { m with pending := pending }) keeps bodies tidy linked raw
  case h_3 => cases running

/-! ## What steps keep -/

end Machine

namespace Linked

variable {top frame frame' caller caller' : Frame} {below rest : List Frame}

theorem tail (linked : Linked (frame :: below)) : Linked below := by
  cases below with
  | nil => trivial
  | cons caller rest => exact linked.2

theorem same (linked : Linked (frame :: below)) (alike : frame'.kind = frame.kind) :
    Linked (frame' :: below) := by
  cases below with
  | nil => exact alike.trans linked
  | cons caller rest => exact ⟨by rw [alike]; exact linked.1, linked.2⟩

end Linked

namespace Frame

variable {host : Host σ} {caller caller' : Frame} {kind : FrameKind} {value : Value}
  {s s' : Store σ}

theorem Receives.same (receives : caller.Receives host kind value s s' caller') :
    caller.Same caller' := by
  cases kind with
  | topLevel => exact receives.elim
  | function =>
    obtain ⟨-, rfl⟩ := receives
    exact ⟨rfl, rfl, rfl⟩
  | conversion operand conversion =>
    obtain ⟨_, -, rfl⟩ := receives
    exact ⟨rfl, rfl, rfl⟩

theorem Receives.tidy (receives : caller.Receives host kind value s s' caller')
    (tidy : caller.Tidy) (awaits : caller.Awaits kind) : caller'.Tidy := by
  cases kind with
  | topLevel => exact receives.elim
  | function =>
    obtain ⟨-, rfl⟩ := receives
    exact tidy.keep awaits value
  | conversion operand conversion =>
    obtain ⟨converted, -, rfl⟩ := receives
    exact tidy.settle awaits converted

end Frame

namespace Machine

variable {host : Host σ}

structure Orderly (m : Machine σ) : Prop where
  sound : m.Sound
  tidy : ∀ frame ∈ m.stack, frame.Tidy
  linked : Linked m.stack

theorem Transition.orderly {s : Store σ} {depthLimit : Nat} {frame : Frame} {below : List Frame}
    {record : Record} {m : Machine σ}
    (transition : Transition host s depthLimit frame below record m)
    (tidy : ∀ frame ∈ below, frame.Tidy) (linked : Linked (frame :: below)) :
    (∀ frame ∈ m.stack, frame.Tidy) ∧ Linked m.stack := by
  cases transition with
  | worked same ready stack =>
    rw [stack]
    exact ⟨List.forall_mem_cons.mpr ⟨ready, tidy⟩, linked.same same.kind⟩
  | pushed room same origin awaits ready rooted stack =>
    rw [stack]
    exact ⟨List.forall_mem_cons.mpr ⟨.start _ _ rooted (.inr rfl),
      List.forall_mem_cons.mpr ⟨ready, tidy⟩⟩, awaits, linked.same same.kind⟩
  | ended kind only stack =>
    rw [stack]
    exact ⟨by simp, trivial⟩
  | delivered whole receives stack =>
    subst whole
    obtain ⟨first, rest⟩ := List.forall_mem_cons.mp tidy
    rw [stack]
    exact ⟨List.forall_mem_cons.mpr ⟨receives.tidy first linked.1, rest⟩,
      linked.2.same receives.same.kind⟩

theorem Orderly.running {m : Machine σ} (orderly : m.Orderly) {frame : Frame} {below : List Frame}
    (running : m.running? = some (frame, below)) :
    frame.Tidy ∧ (∀ frame ∈ below, frame.Tidy) ∧ Linked (frame :: below) := by
  unfold running? at running
  split at running
  case h_1 whole =>
    cases running
    have tidy := orderly.tidy
    have linked := orderly.linked
    rw [whole] at tidy linked
    obtain ⟨first, rest⟩ := List.forall_mem_cons.mp tidy
    exact ⟨first, rest, linked⟩
  case h_2 code pending none waits =>
    cases running
    have rooted := orderly.sound.units code (by rw [waits]; exact List.mem_cons_self)
    exact ⟨.start _ _ rooted (.inl rfl), by simp, rfl⟩
  case h_3 => cases running

theorem orderly_step (keeps : host.Keeps) {m : Machine σ} (orderly : m.Orderly) :
    (step host m).2.Orderly := by
  have sound := (sound_step keeps orderly.sound).1
  rcases stepped : (step host m).1 with e | record
  · have cleared := stack_of_error stepped
    exact ⟨sound, by rw [cleared]; simp, by rw [cleared]; trivial⟩
  · cases running : m.running? with
    | none =>
      rw [step_of_idle running]
      exact orderly
    | some pair =>
      obtain ⟨frame, below⟩ := pair
      obtain ⟨tidy, rest, linked⟩ := orderly.running running
      have transition := transition_step keeps orderly.sound.bodies tidy linked running stepped
      obtain ⟨tidy, linked⟩ := transition.orderly rest linked
      exact ⟨sound, tidy, linked⟩

theorem orderly_of_reachable (keeps : host.Keeps) {m : Machine σ} (reachable : Reachable host m) :
    m.Orderly := by
  induction reachable with
  | start bodies global depthLimit =>
    exact ⟨⟨bodies, by simp [start], by simp [start]⟩, by simp [start], trivial⟩
  | feed before parsed orderly =>
    exact ⟨sound_of_reachable keeps (.feed before parsed), orderly.tidy, orderly.linked⟩
  | step before orderly => exact orderly_step keeps orderly
  | change before bodies global last depthLimit orderly =>
    exact ⟨⟨bodies, orderly.sound.poised, orderly.sound.units⟩, orderly.tidy, orderly.linked⟩

end Machine

/-! ## No stale values -/

/-- A frame keeps nothing from earlier walks over the same nodes. -/
structure Frame.Uncluttered (frame : Frame) : Prop where
  /-- The current node is entered, or resumed after a child, or it folds again after a hook. -/
  met : frame.visit frame.current = .ok .enter ∨
    frame.previous ∈ frame.code.children frame.current ∨
    frame.previous = frame.current ∧ (frame.code.get? frame.current).any Node.folds = true
  /-- A node that is entered has nothing in its subtree. -/
  entered : frame.visit frame.current = .ok .enter → ∀ k,
    frame.code.contains frame.current k = true →
      frame.memo.find? k = none ∧ frame.converted.find? k = none
  /-- A node that has finished has its value, and in its subtree nothing else; only a member
  that is written to also has its base and its key. -/
  finished : frame.previous ∈ frame.code.children frame.current →
    (frame.memo.find? frame.previous).isSome = true ∧ ∀ k,
      frame.code.contains frame.previous k = true →
        ((frame.memo.find? k).isSome = true → k = frame.previous ∨
          Handler.isTarget frame.code frame.previous = true ∧
            frame.code.get? frame.previous = some (.operation .member) ∧
            k ∈ frame.code.children frame.previous) ∧
        frame.converted.find? k = none
  /-- What a hook has made is kept only while the node folds, for an operand or for the old
  value of the slot that the node updates. -/
  converted : ∀ k, (frame.converted.find? k).isSome = true →
    frame.previous = frame.current ∧ ∃ node, frame.code.get? frame.current = some node ∧
      node.folds = true ∧
      (k ∈ frame.code.children frame.current ∨ k = frame.current ∧ node.isAssignment = true)

theorem Convertible.operand_or_self {code : Code} {n k : Nat} (convertible : Convertible code n k) :
    ∃ node, code.get? n = some node ∧ node.folds = true ∧
      (k ∈ code.children n ∨ k = n ∧ node.isAssignment = true) := by
  obtain ⟨node, found, folds⟩ := convertible.folds
  refine ⟨node, found, folds, ?_⟩
  cases convertible with
  | decider _ _ decides => exact .inl decides.mem
  | left _ _ first => exact .inl (List.mem_of_getElem? first)
  | old other update =>
    cases found.symm.trans other
    exact .inr ⟨rfl, Operation.isAssignment_of_update? update⟩
  | operand _ _ second => exact .inl (List.mem_of_getElem? second)

theorem Frame.Tidy.uncluttered {frame : Frame} (tidy : frame.Tidy) : frame.Uncluttered := by
  have ⟨root, rooted, _⟩ := tidy.poised.rooted
  refine ⟨?_, fun entered k inside => ⟨?_, ?_⟩, fun member => ⟨(tidy.finished member).2,
    fun k inside => ⟨fun kept => ?_, ?_⟩⟩, fun k settled => ?_⟩
  · by_cases waits : frame.previous = frame.current ∧
      (frame.code.parent frame.current).isSome = true ∧
      (frame.code.get? frame.current).all Node.folds = true
    · obtain ⟨node, found⟩ : ∃ node, frame.code.get? frame.current = some node := by
        obtain ⟨node, parts, site⟩ := rooted.site tidy.poised.inside
        exact ⟨node, site.get?⟩
      have folds := waits.2.2
      rw [found] at folds
      exact .inr (.inr ⟨waits.1, by rw [found]; exact folds⟩)
    · rcases Handler.visit_cases tidy.poised waits with entered | ⟨-, member⟩
      · exact .inl entered
      · exact .inr (.inl member)
  · by_contra present
    -- What waits lies before the node, and the subtree of the node does not.
    have waits := Handler.kept_of_enter tidy.poised entered
      (tidy.kept k (Option.isSome_iff_ne_none.mpr present))
    have before := waits.lt rooted
    simp only [Outline.contains, Bool.and_eq_true, decide_eq_true_eq] at inside
    omega
  · by_contra present
    exact Handler.settled_of_enter tidy.poised entered k
      (tidy.settled k (Option.isSome_iff_ne_none.mpr present))
  · have below := (rooted.child_bounds member).1
    simp only [Outline.contains, Bool.and_eq_true, decide_eq_true_eq] at inside
    rcases Handler.kept_of_resume tidy.poised member (tidy.kept k kept) with waits | held | residue
    · have before := waits.lt rooted
      omega
    · have before := held.lt rooted member
      omega
    · cases residue with
      | value => exact .inl rfl
      | part target found isPart => exact .inr ⟨target, found, isPart⟩
  · by_contra present
    exact Handler.previous_ne tidy.poised member
      (tidy.settled k (Option.isSome_iff_ne_none.mpr present)).1
  · have kept := tidy.settled k settled
    exact ⟨kept.1, kept.2.operand_or_self⟩

namespace Machine

variable {host : Host σ}

/-- Whatever a machine runs, its frames keep no values of earlier visits. -/
theorem uncluttered_of_reachable (keeps : host.Keeps) {m : Machine σ}
    (reachable : Reachable host m) : ∀ frame ∈ m.stack, frame.Uncluttered :=
  fun frame member => ((orderly_of_reachable keeps reachable).tidy frame member).uncluttered

/-- The hook of the right operand runs, and that of the left one has given something. -/
theorem uncluttered_of_reachable_hook :
    let m := Bare.after Bare.subtraction 24
    Bare.host.Keeps ∧ Reachable Bare.host m ∧
      m.stack.map (fun frame => ((frame.memo.find? 11).isSome, (frame.converted.find? 3).isSome)) =
        [(false, false), (true, true)] ∧
      ∀ frame ∈ m.stack, frame.Uncluttered :=
  have reachable := Bare.reachable_after Bare.parse_subtraction 24
  ⟨Bare.keeps, reachable, by decide +kernel, uncluttered_of_reachable Bare.keeps reachable⟩

end Machine

end StepScript
