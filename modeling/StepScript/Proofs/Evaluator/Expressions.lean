import StepScript.Proofs.Evaluator.Constructs

/-! Expressions do what the evaluator does. -/

set_option autoImplicit false

namespace StepScript

variable {σ β : Type} {host : Host σ} {k : Nat} {c : Setting} {path : List Nat} {n : Nat}
  {memo converted : NodeMap Value} {s : Store σ} {sub : Rose Node} {up : Nat}

namespace Handler

def applyUnary (host : Host σ) (op : UnaryOp) (operand : Nat) : Handler σ Move := do
  let value ← takeConverted operand
  return .finish (← act (host.unary op value))

def applyBinary (host : Host σ) (op : BinaryOp) (left right : Nat) : Handler σ Move := do
  let x ← takeConverted left
  let y ← takeConverted right
  return .finish (← act (host.binary op x y))

def applyLogical (host : Host σ) (stopsOn : Bool) (left right : Nat) : Handler σ Move := do
  let value ← take left
  let converted := (← frame).converted.find? left
  modifyFrame (·.discardConverted left)
  let truth ← act (host.toBoolean (converted.getD value))
  if truth = stopsOn then return .finish value
  else return .descend right

theorem exec_foldUnary {op : UnaryOp} {conversion : Conversion}
    (wanted : op.conversion? = some conversion) (operand : Nat) (l : Local σ) :
    (foldUnary host op operand).exec l =
      (afterHooks [(operand, l.frame.peek operand)] conversion
        (applyUnary host op operand)).exec l := by
  simp only [foldUnary, unaryHook, wanted, afterHooks, exec_bind, exec_frame, andThen_ok]
  rfl

theorem exec_foldLogical (stopsOn : Bool) (left right : Nat) (l : Local σ) :
    (foldLogical host stopsOn left right).exec l =
      (afterHooks [(left, l.frame.peek left)] .toBoolean
        (applyLogical host stopsOn left right)).exec l := by
  simp only [foldLogical, afterHooks, exec_bind, exec_frame, andThen_ok]
  rfl

theorem exec_foldBinary (host : Host σ) (op : BinaryOp) (left right : Nat) (l : Local σ) :
    (foldBinary host op left right).exec l =
      (afterHooks (if op.isNumericOn (l.frame.peek left) (l.frame.peek right) then
          [(left, l.frame.peek left), (right, l.frame.peek right)] else []) .toNumber
        (applyBinary host op left right)).exec l := by
  simp only [foldBinary, binaryHook, afterHooks, exec_bind, exec_frame, andThen_ok]
  split
  · rfl
  · rfl

end Handler

variable (clear : Clear c path sub memo converted)
  (above : (Outline.ofRose c.tree).parent (c.tree.place path) = some up)
  (agrees : Agrees host k) (bodies : s.Bodies) (keeps : host.Keeps)
include clear above agrees bodies keeps

/-! ## Operators -/

theorem performs_unary {op : UnaryOp} {operand : Rose Node} (parts : sub.children = [operand])
    (plain : sub.value.isAssignment = false)
    (handles : Setting.handle host (c.tree.place path) sub.value =
      Handler.unary host (c.tree.place path) op) :
    Performs host c (c.tree.place path) up memo converted s (k + 1)
      (Evaluator.unary host c.depthLimit k (Evaluator.eval host c.depthLimit k) c.here op
        operand) := by
  have selected : sub.children[0]? = some operand := by rw [parts]; rfl
  have aside := clear.plain selected fun _ => plain
  have folds (q : Nat) (either : q = c.tree.place (path ++ [0]) ∨ q = c.tree.place path)
      (memo' converted' : NodeMap Value) (s' : Store σ) :
      (Setting.handle host (c.tree.place path) sub.value).exec
          ⟨c.frame (c.tree.place path) q memo' converted', s'⟩ =
        (Handler.foldUnary host op (c.tree.place (path ++ [0]))).exec
          ⟨c.frame (c.tree.place path) q memo' converted', s'⟩ := by
    rw [handles]
    rcases clear.met above selected either memo' converted' with resumed | again
    · simp [Handler.unary, Setting.exec_requiredChild clear.found selected, resumed]
    · simp [Handler.unary, Setting.exec_requiredChild clear.found selected, again]
  apply clear.descend (c.tree.place (path ++ [0]))
  · rw [handles]
    simp [Handler.unary, Setting.exec_requiredChild clear.found selected,
      Setting.visitFolding_enter clear.found above]
  · unfold Evaluator.unary
    -- An operator without a conversion runs no hook, so the node is met only once more.
    cases wanted : op.conversion? with
    | none =>
      apply Simulates.bind (agrees c _ _ operand s memo converted (clear.child selected)
        (clear.above selected) aside bodies)
      intro value s' bodies'
      have unsettled := (clear.child selected).unsettled
      apply clear.step
      rw [folds _ (.inl rfl)]
      simp only [Handler.foldUnary, Handler.unaryHook, wanted, Handler.exec_bind,
        Handler.exec_pure, Handler.andThen_ok, Handler.exec_takeConverted, Setting.frame_converted,
        unsettled, Option.getD_none, Setting.frame_peek, NodeMap.find?_insert, if_true,
        Option.getD_some, Setting.frame_discard, Setting.frame_discardConverted,
        NodeMap.erase_insert (clear.child selected).absent,
        NodeMap.erase_of_find?_eq_none unsettled]
      exact simulates_act above bodies' (keeps.unary op value)
    | some conversion =>
      apply simulates_settled (clear.child selected) (clear.above selected) aside bodies
        (Nat.le_refl k) agrees keeps (Handler.applyUnary host op (c.tree.place (path ++ [0])))
      · intro q either memo' converted' s'
        rw [Setting.exec_node clear.found _ rfl, folds q either, Handler.exec_foldUnary wanted]
        rfl
      · intro value q numbered after s' same restored bodies'
        simp only [Handler.applyUnary, Handler.exec_bind, Handler.exec_takeConverted,
          Handler.andThen_ok, Setting.frame_converted, Setting.frame_peek, NodeMap.find?_insert,
          if_true, same, Option.getD_some, Setting.frame_discard, Setting.frame_discardConverted,
          restored, NodeMap.erase_insert (clear.child selected).absent]
        exact simulates_act above bodies' (keeps.unary op _)

theorem performs_logical {stopsOn : Bool} {left right : Rose Node}
    (parts : sub.children = [left, right])
    (plain : sub.value.isAssignment = false)
    (handles : Setting.handle host (c.tree.place path) sub.value =
      Handler.logical host (c.tree.place path) stopsOn) :
    Performs host c (c.tree.place path) up memo converted s (k + 1)
      (Evaluator.logical host c.depthLimit k (Evaluator.eval host c.depthLimit k) c.here stopsOn
        left right) := by
  have first : sub.children[0]? = some left := by rw [parts]; rfl
  have second : sub.children[1]? = some right := by rw [parts]; rfl
  apply clear.descend (c.tree.place (path ++ [0]))
  · rw [handles]
    simp [Handler.logical, Setting.exec_requiredChild clear.found first,
      Setting.exec_requiredChild clear.found second, Setting.visitFolding_enter clear.found above]
  · apply simulates_settled (clear.child first) (clear.above first)
      (clear.plain first fun _ => plain) bodies (Nat.le_refl k) agrees keeps
      (Handler.applyLogical host stopsOn (c.tree.place (path ++ [0])) (c.tree.place (path ++ [1])))
    · intro q either memo' converted' s'
      rw [Setting.exec_node clear.found _ rfl, handles]
      trans (Handler.foldLogical host stopsOn (c.tree.place (path ++ [0]))
        (c.tree.place (path ++ [1]))).exec ⟨c.frame (c.tree.place path) q memo' converted', s'⟩
      · rcases clear.met above first either memo' converted' with resumed | again
        · simp [Handler.logical, Setting.exec_requiredChild clear.found first,
            Setting.exec_requiredChild clear.found second, resumed]
        · simp [Handler.logical, Setting.exec_requiredChild clear.found first,
            Setting.exec_requiredChild clear.found second, again]
      · rw [Handler.exec_foldLogical]
        rfl
    · intro value q numbered after s' same restored bodies'
      simp only [Handler.applyLogical, Handler.exec_bind, Handler.exec_take, Handler.andThen_ok,
        Handler.exec_frame, Handler.exec_modifyFrame, Setting.frame_converted, Setting.frame_peek,
        NodeMap.find?_insert, if_true, same, Option.getD_some, Setting.frame_discard,
        Setting.frame_discardConverted, restored,
        NodeMap.erase_insert (clear.child first).absent, Handler.exec_act]
      apply Simulates.act (keeps.toBoolean _) bodies'
      · intro e s'' run
        rw [run]
        exact Setting.resulting_error _ _
      · intro truth s'' run bodies''
        rw [run]
        simp only [Handler.andThen_ok, Handler.exec_ite]
        by_cases stops : truth = stopsOn
        · rw [if_pos stops, if_pos stops]
          exact Clear.finish above bodies'' value
        · rw [if_neg stops, if_neg stops]
          -- The value of the right operand becomes that of the node without another test.
          apply clear.tail above agrees second (clear.plain second fun zero => by omega) bodies''
          intro result s₃
          rw [handles]
          simp [Handler.logical, Setting.exec_requiredChild clear.found first,
            Setting.exec_requiredChild clear.found second,
            Setting.visitFolding_resume clear.found (clear.below second),
            clear.place_ne second first (by omega), NodeMap.find?_insert,
            NodeMap.erase_insert (clear.child second).absent]

theorem performs_conditional {test left right : Rose Node}
    (content : sub.value = .operation .conditional) (parts : sub.children = [test, left, right]) :
    Performs host c (c.tree.place path) up memo converted s (k + 1) (do
      if ← Evaluator.condition host c.depthLimit k (Evaluator.eval host c.depthLimit k) c.here test
      then Evaluator.eval host c.depthLimit k c.here left
      else Evaluator.eval host c.depthLimit k c.here right) := by
  have first : sub.children[0]? = some test := by rw [parts]; rfl
  have second : sub.children[1]? = some left := by rw [parts]; rfl
  have third : sub.children[2]? = some right := by rw [parts]; rfl
  have plain : sub.value.isAssignment = false := by rw [content]; rfl
  have chooses : Setting.handle host (c.tree.place path) sub.value =
      Handler.choice (c.tree.place path) (Handler.chooseOperand host (c.tree.place path)) := by
    rw [content]
    rfl
  apply performs_choice clear above agrees bodies first plain chooses keeps
    (Handler.chooseOperand_eq (c.tree.place path))
  intro truth q s' bodies'
  cases truth with
  | true =>
    simp only [if_true, Handler.exec_bind, Setting.exec_requiredChild clear.found second,
      Handler.andThen_ok, Handler.exec_pure, Setting.resulting_descend]
    exact performs_chosen clear above agrees bodies' first plain chooses second (by omega)
  | false =>
    simp only [Bool.false_eq_true, if_false, Handler.exec_bind,
      Setting.exec_requiredChild clear.found third, Handler.andThen_ok, Handler.exec_pure,
      Setting.resulting_descend]
    exact performs_chosen clear above agrees bodies' first plain chooses third (by omega)

section Binary

variable {op : BinaryOp} {left right : Rose Node} (parts : sub.children = [left, right])
  (handles : Setting.handle host (c.tree.place path) sub.value =
    Handler.binary host (c.tree.place path) op)
include parts handles

theorem simulates_foldBinary {memo' : NodeMap Value} {x y : Value}
    (kept : memo'.find? (c.tree.place (path ++ [0])) = some x)
    (kept' : memo'.find? (c.tree.place (path ++ [1])) = some y)
    (rest : (memo'.erase (c.tree.place (path ++ [0]))).erase (c.tree.place (path ++ [1])) = memo) :
    Simulates k (do
        let numbered ← Evaluator.settleValues host c.depthLimit k
          (Evaluator.eval host c.depthLimit k) c.here .toNumber
          (if op.isNumericOn x y then [x, y] else [])
        Eval.act (host.binary op ((numbered.find? 0).getD x) ((numbered.find? 1).getD y))) s
      ((c.state s (c.tree.place path) (c.tree.place (path ++ [1])) memo' converted).behaviour host)
      (c.finished host (c.tree.place path) up memo converted) (c.given host) := by
  have first : sub.children[0]? = some left := by rw [parts]; rfl
  have second : sub.children[1]? = some right := by rw [parts]; rfl
  have differ := clear.place_ne first second (by omega)
  have folds (q : Nat) (either : q = c.tree.place (path ++ [1]) ∨ q = c.tree.place path)
      (converted' : NodeMap Value) (s' : Store σ) :
      (Handler.node host (c.tree.place path)).exec
          ⟨c.frame (c.tree.place path) q memo' converted', s'⟩ =
        (Handler.afterHooks (if op.isNumericOn x y then
            [(c.tree.place (path ++ [0]), x), (c.tree.place (path ++ [1]), y)] else []) .toNumber
          (Handler.applyBinary host op (c.tree.place (path ++ [0]))
            (c.tree.place (path ++ [1])))).exec
          ⟨c.frame (c.tree.place path) q memo' converted', s'⟩ := by
    have folded := Handler.exec_foldBinary host op (c.tree.place (path ++ [0]))
      (c.tree.place (path ++ [1])) ⟨c.frame (c.tree.place path) q memo' converted', s'⟩
    simp only [Setting.frame_peek, kept, kept', Option.getD_some] at folded
    rw [Setting.exec_node clear.found _ rfl, handles, ← folded]
    rcases clear.met above second either memo' converted' with resumed | again
    · simp [Handler.binary, Setting.exec_requiredChild clear.found first,
        Setting.exec_requiredChild clear.found second, resumed, differ.symm]
    · simp [Handler.binary, Setting.exec_requiredChild clear.found first,
        Setting.exec_requiredChild clear.found second, again]
  have fits : k ≤ min (k + 1) (k + 1) := by omega
  apply Simulates.of_le ?_ fits
  apply simulates_settle agrees keeps
    (Spread.two (c.tree.place (path ++ [0])) (c.tree.place (path ++ [1]))) 2
    (Spread.two_distinct differ) ?_ _ ?_ folds ?_ (k + 1) (Nat.le_refl _) _ (.inl rfl) _ _
    (Spread.two_empty (clear.child first).unsettled (clear.child second).unsettled) s bodies
  -- Where the operator does not work on numbers, nothing is converted and the list is empty.
  · intro _ operand member
    have numbered := List.mem_range.mp (List.of_mem_zip member).1
    split at numbered
    · exact numbered
    · exact Nat.lt_of_lt_of_le numbered (Nat.zero_le 2)
  · intro _
    split
    · rfl
    · rfl
  · intro q numbered after s' spread bodies'
    have zero : after.find? (c.tree.place (path ++ [0])) = numbered.find? 0 :=
      spread.inside 0 (by omega)
    have one : after.find? (c.tree.place (path ++ [1])) = numbered.find? 1 :=
      spread.inside 1 (by omega)
    have restored : (after.erase (c.tree.place (path ++ [0]))).erase
        (c.tree.place (path ++ [1])) = converted :=
      spread.erase_two (clear.child first).unsettled (clear.child second).unsettled
    simp only [Handler.applyBinary, Handler.exec_bind, Handler.exec_takeConverted,
      Handler.andThen_ok, Setting.frame_converted, Setting.frame_peek, Setting.frame_discard,
      Setting.frame_discardConverted, NodeMap.find?_erase, if_neg differ.symm, kept, kept', zero,
      one, rest, restored, Option.getD_some]
    exact simulates_act above bodies' (keeps.binary op _ _)

theorem performs_binary (plain : sub.value.isAssignment = false) :
    Performs host c (c.tree.place path) up memo converted s (k + 1)
      (Evaluator.binary host c.depthLimit k (Evaluator.eval host c.depthLimit k) c.here op
        left right) := by
  have first : sub.children[0]? = some left := by rw [parts]; rfl
  have second : sub.children[1]? = some right := by rw [parts]; rfl
  apply clear.descend (c.tree.place (path ++ [0]))
  · rw [handles]
    simp [Handler.binary, Setting.exec_requiredChild clear.found first,
      Setting.exec_requiredChild clear.found second, Setting.visitFolding_enter clear.found above]
  · unfold Evaluator.binary
    apply Simulates.bind (agrees c _ _ left s memo converted (clear.child first)
      (clear.above first) (clear.plain first fun _ => plain) bodies)
    intro x s' bodies'
    apply clear.step
    have resumed : (Setting.handle host (c.tree.place path) sub.value).exec
        ⟨c.frame (c.tree.place path) (c.tree.place (path ++ [0]))
          (memo.insert (c.tree.place (path ++ [0])) x) converted, s'⟩ =
        (.ok (.descend (c.tree.place (path ++ [1]))), ⟨c.frame (c.tree.place path)
          (c.tree.place (path ++ [0])) (memo.insert (c.tree.place (path ++ [0])) x) converted,
          s'⟩) := by
      rw [handles]
      simp [Handler.binary, Setting.exec_requiredChild clear.found first,
        Setting.exec_requiredChild clear.found second,
        Setting.visitFolding_resume clear.found (clear.below first)]
    rw [resumed]
    apply Simulates.bind (agrees c _ _ right s' _ converted (clear.sibling first second (by omega) x)
      (clear.above second) (clear.plain second fun zero => by omega) bodies')
    intro y s'' bodies''
    have differ := clear.place_ne first second (by omega)
    apply simulates_foldBinary clear above agrees bodies'' keeps parts handles
    · rw [NodeMap.find?_insert, if_neg differ, NodeMap.find?_insert, if_pos rfl]
    · rw [NodeMap.find?_insert, if_pos rfl]
    · rw [NodeMap.erase_insert_of_ne differ, NodeMap.erase_insert (clear.child first).absent,
        NodeMap.erase_insert (clear.child second).absent]

end Binary

end StepScript
