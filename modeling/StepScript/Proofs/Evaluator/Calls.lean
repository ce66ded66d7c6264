import StepScript.Proofs.Evaluator.Walk

/-! Sequences, calls and hooks do what the evaluator does.

All statements here assume `Agrees host k`: with fuel `k` the evaluator and the
machine agree on every subtree. From this follows that they agree on sequences of
statements, hence on whole bodies, hence on calls and on the hooks that operands
need.
-/

set_option autoImplicit false

namespace StepScript

variable {σ β : Type} {host : Host σ} {k : Nat} {c : Setting}

structure Clear (c : Setting) (path : List Nat) (sub : Rose Node) (memo converted : NodeMap Value) :
    Prop where
  found : c.tree.at? path = some sub
  shaped : Shaped sub
  fresh : Fresh memo (c.tree.place path) (c.tree.place path + sub.size)
  settled : Fresh converted (c.tree.place path) (c.tree.place path + sub.size)

/-- Entering a node and coming back to its parent with a value in the memo, where nothing else has
changed, does what an evaluation does. -/
def Performs (host : Host σ) (c : Setting) (n up : Nat) (memo converted : NodeMap Value)
    (s : Store σ) (k : Nat) (x : Eval σ Value) : Prop :=
  Simulates k x s ((c.state s n up memo converted).behaviour host)
    (c.finished host n up memo converted) (c.given host)

def Agrees (host : Host σ) (k : Nat) : Prop :=
  ∀ (c : Setting) (path : List Nat) (up : Nat) (sub : Rose Node) (s : Store σ)
    (memo converted : NodeMap Value),
    Clear c path sub memo converted →
    (Outline.ofRose c.tree).parent (c.tree.place path) = some up →
    Handler.isTarget (.ofRose c.tree) (c.tree.place path) = false → s.Bodies →
    Performs host c (c.tree.place path) up memo converted s k
      (Evaluator.eval host c.depthLimit k c.here sub)

namespace Clear

variable {path : List Nat} {sub part : Rose Node} {memo converted : NodeMap Value} {i : Nat}

theorem root (shaped : Shaped c.tree) : Clear c [] c.tree .empty .empty :=
  ⟨Rose.at?_nil c.tree, shaped, Fresh.empty _ _, Fresh.empty _ _⟩

theorem bounds (clear : Clear c path sub memo converted) (selected : sub.children[i]? = some part) :
    c.tree.place path < c.tree.place (path ++ [i]) ∧
      c.tree.place (path ++ [i]) + part.size ≤ c.tree.place path + sub.size := by
  have split := Rose.forestSize_split selected
  have whole := Rose.size_eq sub
  rw [Rose.place_snoc clear.found]
  omega

theorem below (clear : Clear c path sub memo converted) (selected : sub.children[i]? = some part) :
    c.tree.at? (path ++ [i]) = some part := by
  rw [Rose.at?_snoc clear.found, selected]

theorem before (clear : Clear c path sub memo converted) (selected : sub.children[i]? = some part)
    {j : Nat} (later : i < j) :
    c.tree.place (path ++ [i]) + part.size ≤ c.tree.place (path ++ [j]) := by
  have inside : (sub.children.take j)[i]? = some part := by
    rw [List.getElem?_take_of_lt later, selected]
  have split := Rose.forestSize_split inside
  rw [List.take_take, Nat.min_eq_left (Nat.le_of_lt later)] at split
  rw [Rose.place_snoc clear.found, Rose.place_snoc clear.found, split]
  omega

theorem above (clear : Clear c path sub memo converted) (selected : sub.children[i]? = some part) :
    (Outline.ofRose c.tree).parent (c.tree.place (path ++ [i])) = some (c.tree.place path) :=
  Setting.parent_child (clear.below selected)

theorem child (clear : Clear c path sub memo converted) (selected : sub.children[i]? = some part) :
    Clear c (path ++ [i]) part memo converted := by
  have bounds := clear.bounds selected
  exact ⟨clear.below selected, clear.shaped.child (List.mem_of_getElem? selected),
    clear.fresh.sub (by omega) (by omega), clear.settled.sub (by omega) (by omega)⟩

theorem insert (clear : Clear c path sub memo converted) {n : Nat}
    (outside : n < c.tree.place path ∨ c.tree.place path + sub.size ≤ n) (value : Value) :
    Clear c path sub (memo.insert n value) converted :=
  ⟨clear.found, clear.shaped, clear.fresh.insert outside value, clear.settled⟩

theorem absent (clear : Clear c path sub memo converted) :
    memo.find? (c.tree.place path) = none :=
  clear.fresh _ (Nat.le_refl _) (by have := sub.size_pos; omega)

theorem unsettled (clear : Clear c path sub memo converted) :
    converted.find? (c.tree.place path) = none :=
  clear.settled _ (Nat.le_refl _) (by have := sub.size_pos; omega)

end Clear

/-! ## Sequences -/

theorem Rose.children_of_drop {sub first : Rose Node} {rest : List (Rose Node)} {i : Nat}
    (whole : sub.children.drop i = first :: rest) :
    sub.children[i]? = some first ∧ sub.children.drop (i + 1) = rest := by
  constructor
  · rw [← Nat.add_zero i, ← List.getElem?_drop, whole]
    rfl
  · rw [← List.drop_drop, whole]
    rfl

section Sequence

variable {path : List Nat} {sub : Rose Node} {memo converted : NodeMap Value}
  (clear : Clear c path sub memo converted)
  (statements : sub.value = .statement .unit ∨ sub.value = .statement .block)
include clear statements

theorem exec_node_sequence (l : Local σ) (code : l.frame.code = .ofRose c.tree) :
    (Handler.node host (c.tree.place path)).exec l =
      (Handler.sequence (c.tree.place path)).exec l := by
  rw [Setting.exec_node clear.found l code]
  rcases statements with isUnit | isBlock
  · rw [isUnit]
    rfl
  · rw [isBlock]
    rfl

theorem isTarget_statement {i : Nat} {child : Rose Node}
    (selected : sub.children[i]? = some child) :
    Handler.isTarget (.ofRose c.tree) (c.tree.place (path ++ [i])) = false := by
  rw [Setting.isTarget_child clear.found (clear.below selected)]
  rcases statements with isUnit | isBlock
  · rw [isUnit]
    rfl
  · rw [isBlock]
    rfl

/-- A statement, and the step of the sequence after it: its value takes the place of the one
before, and the next statement follows. -/
theorem simulates_statement (agrees : Agrees host k) {i : Nat} {first : Rose Node}
    (selected : sub.children[i]? = some first) {kept : NodeMap Value}
    (same : ∀ n, n ≠ c.tree.place path → kept.find? n = memo.find? n) {s : Store σ}
    (bodies : s.Bodies) {f : Value → Eval σ Value} {E : Value → Store σ → Behaviour σ}
    (next : ∀ value s', s'.Bodies → Simulates k (f value) s'
      (c.resulting host ((Handler.descendOr (Handler.endSequence (c.tree.place path))
          (sub.children[i + 1]?.map fun _ => c.tree.place (path ++ [i + 1]))).exec
        ⟨c.frame (c.tree.place path) (c.tree.place (path ++ [i]))
          (memo.insert (c.tree.place path) value) converted, s'⟩)) E (c.given host)) :
    Simulates k (Evaluator.eval host c.depthLimit k c.here first >>= f) s
      ((c.state s (c.tree.place (path ++ [i])) (c.tree.place path) kept converted).behaviour host)
      E (c.given host) := by
  have below := clear.below selected
  have bounds := clear.bounds selected
  have inner := clear.child selected
  have tidy : Clear c (path ++ [i]) first kept converted := by
    refine ⟨below, inner.shaped, ?_, inner.settled⟩
    intro n lower upper
    rw [same n (by omega)]
    exact inner.fresh n lower upper
  -- The value of the statement moves to the sequence, over the value of the statement before it.
  have forgotten (value : Value) : ((kept.insert (c.tree.place (path ++ [i])) value).erase
      (c.tree.place (path ++ [i]))).insert (c.tree.place path) value =
        memo.insert (c.tree.place path) value := by
    rw [NodeMap.erase_insert tidy.absent]
    apply NodeMap.ext
    intro n
    simp only [NodeMap.find?_insert]
    split
    · rfl
    · exact same n ‹_›
  apply Simulates.bind (agrees c (path ++ [i]) (c.tree.place path) first s kept converted tidy
    (clear.above selected) (isTarget_statement clear statements selected) bodies)
  intro value s' bodies'
  apply Setting.simulates_step
  rw [exec_node_sequence clear statements _ rfl]
  have resumed : (Handler.nextStatement (c.tree.place path)).exec
      ⟨c.frame (c.tree.place path) (c.tree.place (path ++ [i]))
        (kept.insert (c.tree.place (path ++ [i])) value) converted, s'⟩ =
      (.ok (sub.children[i + 1]?.map fun _ => c.tree.place (path ++ [i + 1])),
        ⟨c.frame (c.tree.place path) (c.tree.place (path ++ [i]))
          (memo.insert (c.tree.place path) value) converted, s'⟩) := by
    simp [Handler.nextStatement, Handler.visit, Setting.visit_resume clear.found below,
      Setting.nextSibling_child clear.found selected, NodeMap.find?_insert, forgotten]
  simp only [Handler.sequence, Handler.exec_bind, resumed, Handler.andThen_ok]
  exact next value s' bodies'

def Ends (c : Setting) (host : Host σ) (n : Nat) (memo converted : NodeMap Value)
    (E : Value → Store σ → Behaviour σ) : Prop :=
  ∀ value s previous, c.resulting host ((Handler.endSequence n).exec
    ⟨c.frame n previous (memo.insert n value) converted, s⟩) = E value s

/-- From one of the statements on. In front of it, only the value so far may be kept. -/
theorem simulates_rest (agrees : Agrees host k) {E : Value → Store σ → Behaviour σ}
    (ends : Ends c host (c.tree.place path) memo converted E) (rest : List (Rose Node)) (i : Nat)
    (first : Rose Node) (whole : sub.children.drop i = first :: rest) (s : Store σ)
    (bodies : s.Bodies) (kept : NodeMap Value)
    (same : ∀ n, n ≠ c.tree.place path → kept.find? n = memo.find? n) :
    Simulates k (do
        let value ← Evaluator.eval host c.depthLimit k c.here first
        Evaluator.sequence (Evaluator.eval host c.depthLimit k c.here) value rest) s
      ((c.state s (c.tree.place (path ++ [i])) (c.tree.place path) kept converted).behaviour host)
      E (c.given host) := by
  -- By induction on the statements left; the value of the one before may be kept at the sequence.
  induction rest generalizing i first s kept with
  | nil =>
    obtain ⟨selected, remaining⟩ := Rose.children_of_drop whole
    have last : sub.children[i + 1]? = none := by
      rw [← Nat.add_zero (i + 1), ← List.getElem?_drop, remaining]
      rfl
    apply simulates_statement clear statements agrees selected same bodies
    intro value s' bodies'
    rw [last]
    apply Simulates.pure bodies'
    rw [← ends value s' (c.tree.place (path ++ [i]))]
    exact Behaviour.Follows.refl _
  | cons next rest ih =>
    obtain ⟨selected, remaining⟩ := Rose.children_of_drop whole
    obtain ⟨following, -⟩ := Rose.children_of_drop remaining
    apply simulates_statement clear statements agrees selected same bodies
    intro value s' bodies'
    rw [following]
    apply ih (i + 1) next remaining s' bodies' (memo.insert (c.tree.place path) value)
    intro n other
    rw [NodeMap.find?_insert, if_neg other]

theorem simulates_sequence (agrees : Agrees host k) {E : Value → Store σ → Behaviour σ}
    (ends : Ends c host (c.tree.place path) memo converted E)
    (empty : sub.children = [] → ∀ s previous,
      c.resulting host ((Handler.endSequence (c.tree.place path)).exec
        ⟨c.frame (c.tree.place path) previous memo converted, s⟩) = E .undefined s)
    (s : Store σ) (bodies : s.Bodies) {previous : Nat}
    (entered : (c.frame (c.tree.place path) previous memo converted).visit (c.tree.place path) =
      .ok .enter) :
    Simulates (k + 1)
      (Evaluator.sequence (Evaluator.eval host c.depthLimit k c.here) .undefined sub.children) s
      ((c.state s (c.tree.place path) previous memo converted).behaviour host) E
      (c.given host) := by
  apply Setting.simulates_enter
  rw [exec_node_sequence clear statements _ rfl]
  have begun : (Handler.nextStatement (c.tree.place path)).exec
      ⟨c.frame (c.tree.place path) previous memo converted, s⟩ =
      (.ok (sub.children[0]?.map fun _ => c.tree.place (path ++ [0])),
        ⟨c.frame (c.tree.place path) previous memo converted, s⟩) := by
    simp [Handler.nextStatement, Handler.visit, entered, Setting.firstChild_eq clear.found]
  simp only [Handler.sequence, Handler.exec_bind, begun, Handler.andThen_ok]
  cases whole : sub.children with
  | nil =>
    apply Simulates.pure bodies
    rw [← empty whole s previous]
    exact Behaviour.Follows.refl _
  | cons first rest =>
    exact simulates_rest clear statements agrees ends rest 0 first whole s
      bodies memo fun _ _ => rfl

end Sequence

/-! ## Bodies and calls -/

def Setting.outcome (c : Setting) (value : Value) : Value :=
  match c.kind with
  | .topLevel => value
  | .function | .conversion _ _ => .undefined

theorem Setting.resulting_endSequence_root (c : Setting) (s : Store σ) (previous : Nat)
    (memo converted : NodeMap Value) :
    c.resulting host ((Handler.endSequence 0).exec ⟨c.frame 0 previous memo converted, s⟩) =
      c.given host (c.outcome ((memo.find? 0).getD .undefined)) s := by
  have root : (Outline.ofRose c.tree).parent 0 = none := Outline.parent_place (Rose.at?_nil c.tree)
  simp only [Handler.endSequence, Handler.exec_bind, Handler.exec_take, Handler.andThen_ok,
    Handler.exec_code, frame_code, frame_discard, root, Option.isSome_none, Bool.false_eq_true,
    if_false, Handler.exec_frame, frame_kind, frame_peek, outcome]
  cases c.kind with
  | topLevel => exact resulting_give _
  | function => exact resulting_give _
  | conversion operand wanted => exact resulting_give _

theorem simulates_code (agrees : Agrees host k) (shaped : Shaped c.tree)
    (statements : c.tree.value = .statement .unit ∨ c.tree.value = .statement .block)
    (s : Store σ) (bodies : s.Bodies) :
    Simulates (k + 1)
      (Evaluator.sequence (Evaluator.eval host c.depthLimit k c.here) .undefined c.tree.children) s
      ((c.state s 0 0 .empty .empty).behaviour host)
      (fun value => c.given host (c.outcome value)) (c.given host) := by
  apply simulates_sequence (Clear.root shaped) statements agrees ?_ ?_ s bodies Setting.visit_root
  · intro value s' previous
    rw [Rose.place_nil, c.resulting_endSequence_root, NodeMap.find?_insert, if_pos rfl]
    rfl
  · intro _ s' previous
    rw [Rose.place_nil, c.resulting_endSequence_root]
    rfl

section Calls

variable {s : Store σ} {n p : Nat} {memo converted : NodeMap Value} {closure : Closure}

/-- Pushing a frame for a closure is running its body, unless too many are running. -/
theorem simulates_invoke (agrees : Agrees host k) (rooted : closure.body.Rooted .block)
    (bodies : s.Bodies) {kind : FrameKind} (inner : kind ≠ .topLevel) {caller : Frame}
    {args : List Value} {b : Behaviour σ} {K R : Value → Store σ → Behaviour σ}
    (refused : c.depthLimit ≤ c.below.length + 1 → b.Fails (.uncaught .tooManyCalls) s)
    (pushed : ∀ tree, closure.body = .ofRose tree → ¬ c.depthLimit ≤ c.below.length + 1 →
      b = ((c.inner kind (.object s.objects.size) tree caller).state
        (s.newObject ⟨closure.scope, Machine.bindParams closure.params args []⟩).2 0 0 .empty
          .empty).behaviour host)
    (gives : ∀ scope tree, (c.inner kind scope tree caller).given host = K) :
    Simulates (k + 1)
      (Evaluator.invoke c.depthLimit (Evaluator.eval host c.depthLimit k) c.here closure args) s b
      K R := by
  obtain ⟨tree, body, shaped, block⟩ := rooted
  unfold Evaluator.invoke
  by_cases full : c.depthLimit ≤ c.below.length + 1
  · rw [if_pos (show c.depthLimit ≤ c.here.depth from full)]
    exact .fail (refused full)
  · rw [if_neg (show ¬ c.depthLimit ≤ c.here.depth from full), pushed tree body full, body,
      Outline.toRose_ofRose]
    apply Simulates.store
    apply Simulates.setStore
    -- From here on a value and a returned value are treated alike.
    apply Simulates.returning
    rw [← gives (.object s.objects.size) tree]
    apply Simulates.bind (simulates_code (c := c.inner kind (.object s.objects.size) tree caller)
      agrees shaped (.inr block) _ (bodies.newObject _))
    intro value s' bodies'
    apply Simulates.pure bodies'
    -- A body that ends without returning gives nothing, whatever the value of its last statement.
    have silent : (c.inner kind (.object s.objects.size) tree caller).outcome value =
        .undefined := by
      cases kind with
      | topLevel => exact absurd rfl inner
      | function => rfl
      | conversion operand wanted => rfl
    rw [silent]
    exact Behaviour.Follows.refl _

theorem simulates_call (agrees : Agrees host k) (bodies : s.Bodies) (id : Nat) {parent : Nat}
    (above : (Outline.ofRose c.tree).parent n = some parent) (args : List Value)
    {R : Value → Store σ → Behaviour σ} :
    Simulates (k + 1)
      (Evaluator.invoke c.depthLimit (Evaluator.eval host c.depthLimit k) c.here (s.closure id)
        args) s
      (c.resulting host (.ok (.call (s.closure id) args), ⟨c.frame n p memo converted, s⟩))
      (fun value s' => (c.state s' parent n (memo.insert n value) converted).behaviour host) R := by
  apply simulates_invoke agrees (bodies.closure id) bodies 
    (by simp : FrameKind.function ≠ .topLevel)
    (Setting.resulting_call_refused args)
    (fun tree body room => Setting.resulting_call args room body above)
  intro scope tree
  funext value s'
  exact Setting.given_function scope tree parent value

/-- A hook that is run for an operand of a node, and the conversion of what it gives. -/
theorem simulates_hook (agrees : Agrees host k) (keeps : host.Keeps) (bodies : s.Bodies)
    (id operand : Nat) (conversion : Conversion) {f : Value → Eval σ β}
    {K : β → Store σ → Behaviour σ} {R : Value → Store σ → Behaviour σ} {few : Nat}
    (fewer : few ≤ k + 1)
    (next : ∀ value s', s'.Bodies → Simulates few (f value) s'
      ((c.state s' n n memo (converted.insert operand value)).behaviour host) K R) :
    Simulates few (do
        let result ← Evaluator.invoke c.depthLimit (Evaluator.eval host c.depthLimit k) c.here
          (s.closure id) []
        let value ← Eval.act (host.convert conversion result)
        f value) s
      (c.resulting host (.ok (.convert operand conversion (s.closure id)),
        ⟨c.frame n p memo converted, s⟩)) K R := by
  apply Simulates.bind ((simulates_invoke agrees (bodies.closure id) bodies
    (by simp : FrameKind.conversion operand conversion ≠ .topLevel)
    (Setting.resulting_convert_refused operand conversion)
    (fun tree body room => Setting.resulting_convert operand conversion room body)
    (fun scope tree => funext fun value => funext fun s' =>
      Setting.given_conversion operand conversion scope tree value)).of_le fewer)
  intro result s' bodies'
  apply Simulates.act (keeps.convert conversion result) bodies'
  · intro e after run
    rw [run]
    exact ⟨0, _, rfl, rfl⟩
  · intro value after run bodies''
    rw [run]
    exact next value after bodies''

end Calls

end StepScript
