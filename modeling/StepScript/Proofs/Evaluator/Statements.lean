import StepScript.Proofs.Evaluator.Operands

/-! Statements do what the evaluator does. -/

set_option autoImplicit false

namespace StepScript

variable {σ β : Type} {host : Host σ} {k : Nat} {c : Setting} {path : List Nat} {n : Nat}
  {memo converted : NodeMap Value} {s : Store σ}

namespace Clear

section

variable {path : List Nat} {sub : Rose Node} {memo' converted' : NodeMap Value} {p : Nat}
  {x : Eval σ β} {K : β → Store σ → Behaviour σ} {R : Value → Store σ → Behaviour σ}

theorem enter (clear : Clear c path sub memo converted)
    (simulates : Simulates k x s (c.resulting host
      ((Setting.handle host (c.tree.place path) sub.value).exec
        ⟨c.frame (c.tree.place path) p memo' converted', s⟩)) K R) :
    Simulates (k + 1) x s
      ((c.state s (c.tree.place path) p memo' converted').behaviour host) K R := by
  apply Setting.simulates_enter
  rw [Setting.exec_node clear.found _ rfl]
  exact simulates

theorem step (clear : Clear c path sub memo converted)
    (simulates : Simulates k x s (c.resulting host
      ((Setting.handle host (c.tree.place path) sub.value).exec
        ⟨c.frame (c.tree.place path) p memo' converted', s⟩)) K R) :
    Simulates k x s ((c.state s (c.tree.place path) p memo' converted').behaviour host) K R :=
  (clear.enter simulates).of_le (Nat.le_succ k)

theorem descend (clear : Clear c path sub memo converted) (child : Nat)
    (goes : (Setting.handle host (c.tree.place path) sub.value).exec
        ⟨c.frame (c.tree.place path) p memo' converted', s⟩ =
      (.ok (.descend child), ⟨c.frame (c.tree.place path) p memo' converted', s⟩))
    (simulates : Simulates k x s
      ((c.state s child (c.tree.place path) memo' converted').behaviour host) K R) :
    Simulates (k + 1) x s
      ((c.state s (c.tree.place path) p memo' converted').behaviour host) K R := by
  apply clear.enter
  rw [goes]
  exact simulates

end

variable {sub part : Rose Node} {up j : Nat}

theorem finish (above : (Outline.ofRose c.tree).parent n = some up) (bodies : s.Bodies)
    (value : Value) {q : Nat} {R : Value → Store σ → Behaviour σ} :
    Simulates k (pure value : Eval σ Value) s
      (c.resulting host (.ok (.finish value), ⟨c.frame n q memo converted, s⟩))
      (c.finished host n up memo converted) R := by
  apply Simulates.pure bodies
  rw [Setting.finishes above]
  exact Behaviour.Follows.refl _

theorem plain (clear : Clear c path sub memo converted) (selected : sub.children[j]? = some part)
    (other : j = 0 → sub.value.isAssignment = false) :
    Handler.isTarget (.ofRose c.tree) (c.tree.place (path ++ [j])) = false := by
  rw [Setting.isTarget_child clear.found (clear.below selected)]
  by_cases zero : j = 0
  · rw [other zero, Bool.false_and]
  · rw [beq_eq_false_iff_ne.mpr zero, Bool.and_false]

theorem tail (clear : Clear c path sub memo converted)
    (above : (Outline.ofRose c.tree).parent (c.tree.place path) = some up)
    (agrees : Agrees host k) (selected : sub.children[j]? = some part)
    (plain : Handler.isTarget (.ofRose c.tree) (c.tree.place (path ++ [j])) = false)
    (bodies : s.Bodies)
    (passes : ∀ value s', (Setting.handle host (c.tree.place path) sub.value).exec
        ⟨c.frame (c.tree.place path) (c.tree.place (path ++ [j]))
          (memo.insert (c.tree.place (path ++ [j])) value) converted, s'⟩ =
      (.ok (.finish value), ⟨c.frame (c.tree.place path) (c.tree.place (path ++ [j])) memo
        converted, s'⟩)) :
    Simulates k (Evaluator.eval host c.depthLimit k c.here part) s
      ((c.state s (c.tree.place (path ++ [j])) (c.tree.place path) memo converted).behaviour host)
      (c.finished host (c.tree.place path) up memo converted) (c.given host) := by
  rw [← bind_pure (Evaluator.eval host c.depthLimit k c.here part)]
  apply Simulates.bind (agrees c (path ++ [j]) (c.tree.place path) part s memo converted
    (clear.child selected) (clear.above selected) plain bodies)
  intro value s' bodies'
  apply clear.step
  rw [passes]
  exact finish above bodies' value

theorem met (clear : Clear c path sub memo converted)
    (above : (Outline.ofRose c.tree).parent (c.tree.place path) = some up)
    (selected : sub.children[j]? = some part) {q : Nat}
    (either : q = c.tree.place (path ++ [j]) ∨ q = c.tree.place path)
    (memo' converted' : NodeMap Value) :
    (c.frame (c.tree.place path) q memo' converted').visitFolding (c.tree.place path) =
        .ok (some (.resume (c.tree.place (path ++ [j])))) ∨
      (c.frame (c.tree.place path) q memo' converted').visitFolding (c.tree.place path) =
        .ok none := by
  rcases either with rfl | rfl
  · exact .inl (Setting.visitFolding_resume clear.found (clear.below selected))
  · exact .inr (Setting.visitFolding_wait above)

theorem place_ne (clear : Clear c path sub memo converted) {part' : Rose Node} {j' : Nat}
    (selected : sub.children[j]? = some part) (selected' : sub.children[j']? = some part')
    (differ : j ≠ j') : c.tree.place (path ++ [j]) ≠ c.tree.place (path ++ [j']) := by
  have := part.size_pos
  have := part'.size_pos
  rcases Nat.lt_or_gt_of_ne differ with less | greater
  · have := clear.before selected less
    omega
  · have := clear.before selected' greater
    omega

theorem sibling (clear : Clear c path sub memo converted) {part' : Rose Node} {j' : Nat}
    (selected : sub.children[j]? = some part) (selected' : sub.children[j']? = some part')
    (later : j < j') (value : Value) :
    Clear c (path ++ [j']) part' (memo.insert (c.tree.place (path ++ [j])) value) converted := by
  apply (clear.child selected').insert
  have := clear.before selected later
  have := part.size_pos
  omega

end Clear

variable {sub : Rose Node} {up : Nat} (clear : Clear c path sub memo converted)
  (above : (Outline.ofRose c.tree).parent (c.tree.place path) = some up)
  (agrees : Agrees host k) (bodies : s.Bodies)

section Statements

include clear above agrees bodies

theorem performs_sequence
    (statements : sub.value = .statement .unit ∨ sub.value = .statement .block) :
    Performs host c (c.tree.place path) up memo converted s (k + 1)
      (Evaluator.sequence (Evaluator.eval host c.depthLimit k c.here) .undefined sub.children) := by
  have ended (value : Value) (s' : Store σ) (memo' : NodeMap Value) (p : Nat)
      (kept : (memo'.find? (c.tree.place path)).getD .undefined = value)
      (rest : memo'.erase (c.tree.place path) = memo) :
      c.resulting host ((Handler.endSequence (c.tree.place path)).exec
          ⟨c.frame (c.tree.place path) p memo' converted, s'⟩) =
        c.finished host (c.tree.place path) up memo converted value s' := by
    simp [Handler.endSequence, above, kept, rest, Setting.finishes above]
  apply simulates_sequence clear statements agrees ?_ ?_ s bodies (Setting.visit_enter above)
  · intro value s' p
    apply ended
    · rw [NodeMap.find?_insert, if_pos rfl]
      rfl
    · exact NodeMap.erase_insert clear.absent value
  · intro _ s' p
    apply ended
    · rw [clear.absent]
      rfl
    · exact NodeMap.erase_of_find?_eq_none clear.absent

theorem performs_passThrough {inner : Rose Node} (parts : sub.children = [inner])
    (passes : Setting.handle host (c.tree.place path) sub.value =
      Handler.passThrough (c.tree.place path))
    (plain : sub.value.isAssignment = false) :
    Performs host c (c.tree.place path) up memo converted s (k + 1)
      (Evaluator.eval host c.depthLimit k c.here inner) := by
  have selected : sub.children[0]? = some inner := by
    rw [parts]
    rfl
  apply clear.descend (c.tree.place (path ++ [0]))
  · rw [passes]
    simp [Handler.passThrough, Setting.visit_enter above, Setting.firstChild_eq clear.found,
      selected]
  · apply clear.tail above agrees selected (clear.plain selected fun _ => plain) bodies
    intro value s'
    rw [passes]
    simp [Handler.passThrough, Setting.visit_resume clear.found (clear.below selected),
      NodeMap.find?_insert, NodeMap.erase_insert (clear.child selected).absent]

end Statements

/-! ## Conditions that choose -/

def Handler.choice (node : Nat) (fold : Nat → Handler σ Move) : Handler σ Move := do
  let condition ← requiredChild node 0
  match ← visitFolding node with
  | some .enter => return .descend condition
  | some (.resume child) =>
    if child = condition then fold condition
    else return .finish (← take child)
  | none => fold condition

section Choice

variable {test : Rose Node} (first : sub.children[0]? = some test)
  (plain : sub.value.isAssignment = false)
  {fold : Nat → Handler σ Move}
  (chooses : Setting.handle host (c.tree.place path) sub.value =
    Handler.choice (c.tree.place path) fold)
include clear above agrees bodies first plain chooses

theorem performs_chosen {j : Nat} {part : Rose Node} (selected : sub.children[j]? = some part)
    (later : j ≠ 0) :
    Simulates k (Evaluator.eval host c.depthLimit k c.here part) s
      ((c.state s (c.tree.place (path ++ [j])) (c.tree.place path) memo converted).behaviour host)
      (c.finished host (c.tree.place path) up memo converted) (c.given host) := by
  apply clear.tail above agrees selected (clear.plain selected fun _ => plain) bodies
  intro value s'
  rw [chooses]
  simp [Handler.choice, Setting.exec_requiredChild clear.found first,
    Setting.visitFolding_resume clear.found (clear.below selected),
    clear.place_ne selected first later, NodeMap.find?_insert,
    NodeMap.erase_insert (clear.child selected).absent]

theorem performs_choice (keeps : host.Keeps) {g : Bool → Handler σ Move}
    (decides : ∀ test, fold test = Handler.decide host test g) {f : Bool → Eval σ Value}
    (next : ∀ truth q s', s'.Bodies → Simulates k (f truth) s'
      (c.resulting host ((g truth).exec ⟨c.frame (c.tree.place path) q memo converted, s'⟩))
      (c.finished host (c.tree.place path) up memo converted) (c.given host)) :
    Performs host c (c.tree.place path) up memo converted s (k + 1)
      (Evaluator.condition host c.depthLimit k (Evaluator.eval host c.depthLimit k) c.here test >>=
        f) := by
  apply clear.descend (c.tree.place (path ++ [0]))
  · rw [chooses]
    simp [Handler.choice, Setting.exec_requiredChild clear.found first,
      Setting.visitFolding_enter clear.found above]
  · apply simulates_condition (clear.child first) (clear.above first)
      (clear.plain first fun _ => plain) bodies (Nat.le_refl k) agrees keeps ?_ next
    intro q either memo' converted' s'
    rw [Setting.exec_node clear.found _ rfl, chooses, ← decides]
    rcases clear.met above first either memo' converted' with resumed | again
    · simp [Handler.choice, Setting.exec_requiredChild clear.found first, resumed]
    · simp [Handler.choice, Setting.exec_requiredChild clear.found first, again]

end Choice

section Branches

include clear above agrees bodies

theorem performs_ifElse (keeps : host.Keeps) (value : sub.value = .statement .ifElse)
    {test branch : Rose Node} {rest : List (Rose Node)} (parts : sub.children = test :: branch :: rest) :
    Performs host c (c.tree.place path) up memo converted s (k + 1) (do
      if ← Evaluator.condition host c.depthLimit k (Evaluator.eval host c.depthLimit k) c.here test
      then Evaluator.eval host c.depthLimit k c.here branch
      else match rest with
        | [] => return .undefined
        | other :: _ => Evaluator.eval host c.depthLimit k c.here other) := by
  have plain : sub.value.isAssignment = false := by rw [value]; rfl
  have first : sub.children[0]? = some test := by rw [parts]; rfl
  have second : sub.children[1]? = some branch := by rw [parts]; rfl
  have third : sub.children[2]? = rest[0]? := by rw [parts]; rfl
  have chooses : Setting.handle host (c.tree.place path) sub.value =
      Handler.choice (c.tree.place path) (Handler.chooseBranch host (c.tree.place path)) := by
    rw [value]
    rfl
  apply performs_choice clear above agrees bodies first plain chooses keeps
    (Handler.chooseBranch_eq (c.tree.place path))
  intro truth q s' bodies'
  cases truth with
  | true =>
    simp only [if_true, Handler.exec_bind, Setting.exec_requiredChild clear.found second,
      Handler.andThen_ok, Handler.exec_pure, Setting.resulting_descend]
    exact performs_chosen clear above agrees bodies' first plain chooses second (by omega)
  | false =>
    simp only [Bool.false_eq_true, if_false, Handler.exec_bind, Handler.exec_code,
      Handler.andThen_ok, Setting.frame_code, Outline.child_place clear.found, third]
    cases rest with
    | nil => exact Clear.finish above bodies' .undefined
    | cons other more =>
      exact performs_chosen clear above agrees bodies' first plain chooses third (by omega)

end Branches

/-! ## Loops -/

section Loops

variable (keeps : host.Keeps)
  (aside : Handler.isTarget (.ofRose c.tree) (c.tree.place path) = false)
  {test body : Rose Node}
include clear above agrees bodies keeps aside

theorem performs_while (value : sub.value = .statement .whileLoop)
    (parts : sub.children = [test, body]) :
    Performs host c (c.tree.place path) up memo converted s (k + 1) (do
      if ← Evaluator.condition host c.depthLimit k (Evaluator.eval host c.depthLimit k) c.here test
      then
        let _ ← Evaluator.eval host c.depthLimit k c.here body
        Evaluator.eval host c.depthLimit k c.here sub
      else return .undefined) := by
  have first : sub.children[0]? = some test := by rw [parts]; rfl
  have second : sub.children[1]? = some body := by rw [parts]; rfl
  have plain {j : Nat} {part : Rose Node} (selected : sub.children[j]? = some part) :
      Handler.isTarget (.ofRose c.tree) (c.tree.place (path ++ [j])) = false :=
    clear.plain selected fun _ => by rw [value]; rfl
  have entered (s' : Store σ) : (Setting.handle host (c.tree.place path) sub.value).exec
      ⟨c.frame (c.tree.place path) up memo converted, s'⟩ =
        (.ok (.descend (c.tree.place (path ++ [0]))),
          ⟨c.frame (c.tree.place path) up memo converted, s'⟩) := by
    simp [value, Setting.handle, Handler.statement, Handler.whileLoop,
      Setting.exec_requiredChild clear.found first, Setting.exec_requiredChild clear.found second,
      Setting.visitFolding_enter clear.found above]
  -- After its body a loop does what it does when it is entered.
  have resumed (s' : Store σ) (result : Value) :
      (c.state s' (c.tree.place path) (c.tree.place (path ++ [1]))
        (memo.insert (c.tree.place (path ++ [1])) result) converted).behaviour host =
      (c.state s' (c.tree.place path) up memo converted).behaviour host := by
    rw [c.behaviour_state, c.behaviour_state, Setting.exec_node clear.found _ rfl,
      Setting.exec_node clear.found _ rfl, entered]
    simp [value, Setting.handle, Handler.statement, Handler.whileLoop,
      Setting.exec_requiredChild clear.found first, Setting.exec_requiredChild clear.found second,
      Setting.visitFolding_resume clear.found (clear.below second),
      clear.place_ne second first (by omega), NodeMap.erase_insert (clear.child second).absent]
  apply clear.descend _ (entered s)
  apply simulates_condition (clear.child first) (clear.above first) (plain first) bodies
    (Nat.le_refl k) agrees keeps (g := fun truth => if truth then
      return .descend (c.tree.place (path ++ [1])) else return .finish .undefined)
  · intro q either memo' converted' s'
    rw [Setting.exec_node clear.found _ rfl, ← Handler.loopTest_eq, value]
    rcases clear.met above first either memo' converted' with resumed | again
    · simp [Setting.handle, Handler.statement, Handler.whileLoop, resumed,
        Setting.exec_requiredChild clear.found first, Setting.exec_requiredChild clear.found second]
    · simp [Setting.handle, Handler.statement, Handler.whileLoop, again,
        Setting.exec_requiredChild clear.found first, Setting.exec_requiredChild clear.found second]
  · intro truth q s' bodies'
    cases truth with
    | false => exact Clear.finish above bodies' .undefined
    | true =>
      apply Simulates.bind (agrees c _ _ body s' memo converted (clear.child second)
        (clear.above second) (plain second) bodies')
      intro result s'' bodies''
      -- The next round is a whole evaluation of the loop, with less fuel.
      rw [Setting.finished, resumed]
      exact agrees c path up sub s'' memo converted clear above aside bodies''

end Loops

section DoLoop

variable {body test : Rose Node} (value : sub.value = .statement .doLoop)
  (parts : sub.children = [body, test])
include value parts

theorem eval_do (here : Activation) :
    Evaluator.eval host c.depthLimit (k + 1) here sub = (do
      let _ ← Evaluator.eval host c.depthLimit k here body
      if ← Evaluator.condition host c.depthLimit k (Evaluator.eval host c.depthLimit k) here test
      then Evaluator.eval host c.depthLimit k here sub
      else return .undefined) := by
  rw [Evaluator.eval, Evaluator.rule, value, parts]
  rfl

include clear above

/-- A loop that is run again goes straight to its body. So less fuel is at hand than for entering it,
but the step from the body to the condition makes up for it. -/
theorem simulates_do (keeps : host.Keeps) (agree : ∀ j ≤ k, Agrees host j) (s : Store σ)
    (bodies : s.Bodies) :
    Simulates k (Evaluator.eval host c.depthLimit (k + 1) c.here sub) s
      ((c.state s (c.tree.place (path ++ [0])) (c.tree.place path) memo converted).behaviour host)
      (c.finished host (c.tree.place path) up memo converted) (c.given host) := by
  have first : sub.children[0]? = some body := by rw [parts]; rfl
  have second : sub.children[1]? = some test := by rw [parts]; rfl
  have plain {j : Nat} {part : Rose Node} (selected : sub.children[j]? = some part) :
      Handler.isTarget (.ofRose c.tree) (c.tree.place (path ++ [j])) = false :=
    clear.plain selected fun _ => by rw [value]; rfl
  rw [eval_do value parts]
  induction k generalizing s with
  | zero =>
    apply Simulates.bind (agree 0 (Nat.le_refl 0) c _ _ body s memo converted (clear.child first)
      (clear.above first) (plain first) bodies)
    intro result s' bodies'
    -- Without fuel the condition gives nothing, and neither does a machine without steps.
    rw [Setting.finished, c.behaviour_state]
    rfl
  | succ k ih =>
    have agrees := agree (k + 1) (Nat.le_refl _)
    apply Simulates.bind (agrees c _ _ body s memo converted (clear.child first)
      (clear.above first) (plain first) bodies)
    intro result s' bodies'
    have resumed : (Setting.handle host (c.tree.place path) sub.value).exec
        ⟨c.frame (c.tree.place path) (c.tree.place (path ++ [0]))
          (memo.insert (c.tree.place (path ++ [0])) result) converted, s'⟩ =
        (.ok (.descend (c.tree.place (path ++ [1]))),
          ⟨c.frame (c.tree.place path) (c.tree.place (path ++ [0])) memo converted, s'⟩) := by
      simp [value, Setting.handle, Handler.statement, Handler.doLoop,
        Setting.exec_requiredChild clear.found first, Setting.exec_requiredChild clear.found second,
        Setting.visitFolding_resume clear.found (clear.below first),
        NodeMap.erase_insert (clear.child first).absent]
    apply clear.enter
    rw [resumed]
    apply simulates_condition (clear.child second) (clear.above second) (plain second) bodies'
      (Nat.le_succ k) agrees keeps (g := fun truth => if truth then
        return .descend (c.tree.place (path ++ [0])) else return .finish .undefined)
    · intro q either memo' converted' s''
      rw [Setting.exec_node clear.found _ rfl, ← Handler.loopTest_eq, value]
      rcases clear.met above second either memo' converted' with resumed | again
      · simp [Setting.handle, Handler.statement, Handler.doLoop, resumed,
          Setting.exec_requiredChild clear.found first,
          Setting.exec_requiredChild clear.found second, clear.place_ne second first (by omega)]
      · simp [Setting.handle, Handler.statement, Handler.doLoop, again,
          Setting.exec_requiredChild clear.found first,
          Setting.exec_requiredChild clear.found second]
    · intro truth q s'' bodies''
      cases truth with
      | false => exact Clear.finish above bodies'' .undefined
      | true =>
        -- The body is met again without a step that enters the loop, so the hypothesis is used and not `agrees`.
        rw [if_pos rfl, eval_do value parts]
        exact ih (fun j fewer => agree j (by omega)) s'' bodies''

theorem performs_do (keeps : host.Keeps) (agree : ∀ j ≤ k, Agrees host j) (bodies : s.Bodies) :
    Performs host c (c.tree.place path) up memo converted s (k + 1)
      (Evaluator.eval host c.depthLimit (k + 1) c.here sub) := by
  have first : sub.children[0]? = some body := by rw [parts]; rfl
  have second : sub.children[1]? = some test := by rw [parts]; rfl
  apply clear.descend (c.tree.place (path ++ [0]))
  · simp [value, Setting.handle, Handler.statement, Handler.doLoop,
      Setting.exec_requiredChild clear.found first, Setting.exec_requiredChild clear.found second,
      Setting.visitFolding_enter clear.found above]
  · exact simulates_do clear above value parts keeps agree s bodies

end DoLoop

/-! ## Names, declarations and returns -/

theorem simulates_bind (bodies : s.Bodies) (name : String) (value : Value) {q : Nat}
    {f : Unit → Eval σ β} {g : Unit → Handler σ Move} {K : β → Store σ → Behaviour σ}
    {R : Value → Store σ → Behaviour σ}
    (next : ∀ s', s'.Bodies → Simulates k (f ()) s'
      (c.resulting host ((g ()).exec ⟨c.frame n q memo converted, s'⟩)) K R) :
    Simulates k (Eval.bind c.scope name value >>= f) s
      (c.resulting host (Handler.andThen g
        ((Handler.bind name value).exec ⟨c.frame n q memo converted, s⟩))) K R := by
  simp only [Eval.bind, bind_assoc, Handler.bind, Handler.exec_bind, Handler.exec_store,
    Handler.exec_frame, Handler.andThen_ok, Setting.frame_scope]
  apply Simulates.store
  cases written : s.set c.scope name value with
  | ok s' => exact next s' (bodies.set written)
  | error e => exact Simulates.fail (Setting.resulting_error _ _)

theorem simulates_bindFunction (bodies : s.Bodies) (value : Value) {q : Nat}
    {f : Unit → Eval σ β} {g : Unit → Handler σ Move} {K : β → Store σ → Behaviour σ}
    {R : Value → Store σ → Behaviour σ}
    (next : ∀ s', s'.Bodies → Simulates k (f ()) s'
      (c.resulting host ((g ()).exec ⟨c.frame n q memo converted, s'⟩)) K R) :
    Simulates k (Eval.bindFunction c.scope value >>= f) s
      (c.resulting host (Handler.andThen g
        ((Handler.bindFunction value).exec ⟨c.frame n q memo converted, s⟩))) K R := by
  simp only [Eval.bindFunction, bind_assoc, Handler.bindFunction, Handler.exec_bind,
    Handler.exec_store, Handler.andThen_ok]
  apply Simulates.store
  cases s.ownName? value with
  | some name => exact simulates_bind bodies name value next
  | none => exact next s bodies

section Leaves

include clear above bodies

theorem performs_literal {value : Value} (content : sub.value = .literal value) :
    Performs host c (c.tree.place path) up memo converted s (k + 1) (pure value) := by
  apply clear.enter
  rw [content]
  exact Clear.finish above bodies value

theorem performs_use {name : String} (content : sub.value = .use name) :
    Performs host c (c.tree.place path) up memo converted s (k + 1)
      (Eval.readName c.scope name) := by
  apply clear.enter
  rw [content]
  simp only [Eval.readName, Setting.handle, Handler.nameUse, Handler.exec_bind, Handler.exec_store,
    Handler.exec_frame, Handler.andThen_ok, Setting.frame_scope]
  apply Simulates.store
  cases read : s.index c.scope name with
  | ok answer => exact Clear.finish above (bodies.index read) answer.1
  | error e => exact Simulates.fail (Setting.resulting_error _ _)

theorem performs_declare {name : String} (content : sub.value = .declare name)
    (parts : sub.children = []) :
    Performs host c (c.tree.place path) up memo converted s (k + 1) (do
      Eval.bind c.scope name .undefined
      return .undefined) := by
  apply clear.enter
  simp only [content, Setting.handle, Handler.declaration, Handler.exec_bind, Setting.exec_visit,
    Setting.visit_enter above, Handler.exec_ofExcept_ok, Handler.andThen_ok, Handler.exec_code,
    Setting.frame_code, Setting.firstChild_eq clear.found, parts, List.getElem?_nil,
    Option.map_none]
  apply simulates_bind bodies
  intro s' bodies'
  exact Clear.finish above bodies' .undefined

theorem performs_return (content : sub.value = .statement .ret) (parts : sub.children = []) :
    Performs host c (c.tree.place path) up memo converted s (k + 1)
      (throw (.returned .undefined)) := by
  apply clear.enter
  simp only [content, Setting.handle, Handler.statement, Handler.returnValue, Handler.exec_bind,
    Setting.exec_visit, Setting.visit_enter above, Handler.exec_ofExcept_ok, Handler.andThen_ok,
    Handler.exec_code, Setting.frame_code, Setting.firstChild_eq clear.found, parts,
    List.getElem?_nil, Option.map_none, Handler.exec_pure, Setting.resulting_give]
  exact Simulates.returned bodies (Behaviour.Follows.refl _)

end Leaves

section Fail

include clear

theorem performs_fail {e : EvalError}
    (unknown : Setting.handle host (c.tree.place path) sub.value = throw e) :
    Performs host c (c.tree.place path) up memo converted s (k + 1) (Eval.fail e) := by
  apply clear.enter
  rw [unknown]
  exact Simulates.fail (Setting.resulting_error _ _)

end Fail

/-! ## Statements with one child -/

section OneChild

variable {part : Rose Node} (parts : sub.children = [part])
include clear agrees bodies parts

theorem performs_one (plain : sub.value.isAssignment = false)
    {f : Value → Eval σ Value}
    (entered : (Setting.handle host (c.tree.place path) sub.value).exec
        ⟨c.frame (c.tree.place path) up memo converted, s⟩ =
      (.ok (.descend (c.tree.place (path ++ [0]))),
        ⟨c.frame (c.tree.place path) up memo converted, s⟩))
    (next : ∀ value s', s'.Bodies → Simulates k (f value) s'
      (c.resulting host ((Setting.handle host (c.tree.place path) sub.value).exec
        ⟨c.frame (c.tree.place path) (c.tree.place (path ++ [0]))
          (memo.insert (c.tree.place (path ++ [0])) value) converted, s'⟩))
      (c.finished host (c.tree.place path) up memo converted) (c.given host)) :
    Performs host c (c.tree.place path) up memo converted s (k + 1)
      (Evaluator.eval host c.depthLimit k c.here part >>= f) := by
  have selected : sub.children[0]? = some part := by rw [parts]; rfl
  apply clear.descend _ entered
  apply Simulates.bind (agrees c _ _ part s memo converted (clear.child selected)
    (clear.above selected) (clear.plain selected fun _ => plain) bodies)
  intro value s' bodies'
  exact clear.step (next value s' bodies')

include above

theorem performs_declareWith {name : String} (content : sub.value = .declare name) :
    Performs host c (c.tree.place path) up memo converted s (k + 1) (do
      let value ← Evaluator.eval host c.depthLimit k c.here part
      Eval.bind c.scope name value
      return value) := by
  have selected : sub.children[0]? = some part := by rw [parts]; rfl
  apply performs_one clear agrees bodies parts (by rw [content]; rfl)
  · simp [content, Setting.handle, Handler.declaration, Setting.visit_enter above,
      Setting.firstChild_eq clear.found, selected]
  · intro value s' bodies'
    simp only [content, Setting.handle, Handler.declaration, Handler.exec_bind, Setting.exec_visit,
      Setting.visit_resume clear.found (clear.below selected), Handler.exec_ofExcept_ok,
      Handler.andThen_ok, Handler.exec_take, Setting.frame_peek, NodeMap.find?_insert, if_true,
      Option.getD_some, Setting.frame_discard, NodeMap.erase_insert (clear.child selected).absent]
    apply simulates_bind bodies'
    intro s'' bodies''
    exact Clear.finish above bodies'' value

theorem performs_returnWith (content : sub.value = .statement .ret) :
    Performs host c (c.tree.place path) up memo converted s (k + 1) (do
      let value ← Evaluator.eval host c.depthLimit k c.here part
      throw (.returned value)) := by
  have selected : sub.children[0]? = some part := by rw [parts]; rfl
  apply performs_one clear agrees bodies parts (by rw [content]; rfl)
  · simp [content, Setting.handle, Handler.statement, Handler.returnValue,
      Setting.visit_enter above, Setting.firstChild_eq clear.found, selected]
  · intro value s' bodies'
    simp only [content, Setting.handle, Handler.statement, Handler.returnValue, Handler.exec_bind,
      Setting.exec_visit, Setting.visit_resume clear.found (clear.below selected),
      Handler.exec_ofExcept_ok, Handler.andThen_ok, Handler.exec_take, Setting.frame_peek,
      NodeMap.find?_insert, if_true, Option.getD_some, Setting.frame_discard, Handler.exec_pure,
      Setting.resulting_give]
    exact Simulates.returned bodies' (Behaviour.Follows.refl _)

theorem performs_functionDeclaration (content : sub.value = .statement .functionDeclaration) :
    Performs host c (c.tree.place path) up memo converted s (k + 1) (do
      let value ← Evaluator.eval host c.depthLimit k c.here part
      Eval.bindFunction c.scope value
      return value) := by
  have selected : sub.children[0]? = some part := by rw [parts]; rfl
  apply performs_one clear agrees bodies parts (by rw [content]; rfl)
  · simp [content, Setting.handle, Handler.statement, Handler.functionDeclaration,
      Setting.visit_enter above, Setting.exec_requiredChild clear.found selected]
  · intro value s' bodies'
    simp only [content, Setting.handle, Handler.statement, Handler.functionDeclaration,
      Handler.exec_bind, Setting.exec_visit,
      Setting.visit_resume clear.found (clear.below selected), Handler.exec_ofExcept_ok,
      Handler.andThen_ok, Handler.exec_take, Setting.frame_peek, NodeMap.find?_insert, if_true,
      Option.getD_some, Setting.frame_discard, NodeMap.erase_insert (clear.child selected).absent]
    apply simulates_bindFunction bodies'
    intro s'' bodies''
    exact Clear.finish above bodies'' value

end OneChild

end StepScript
