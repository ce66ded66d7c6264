import StepScript.Proofs.Evaluator.Calls

/-! Operands do what the evaluator does.

A node has its children evaluated one after the other, and their values wait in
the memo under the positions of the children. Some nodes then have hooks run for
their operands, and what these give waits in the map of converted values; the
evaluator numbers the operands instead, and `Spread` relates the two.
-/

set_option autoImplicit false

namespace StepScript

variable {σ β : Type} {host : Host σ} {k : Nat} {c : Setting}

namespace Handler

@[simp] theorem exec_takeConverted (node : Nat) (l : Local σ) :
    (takeConverted node : Handler σ Value).exec l =
      (.ok ((l.frame.converted.find? node).getD (l.frame.peek node)),
        { l with frame := (l.frame.discard node).discardConverted node }) := rfl

@[simp] theorem exec_runHooks (operands : List (Nat × Value)) (conversion : Conversion)
    (l : Local σ) :
    (runHooks operands conversion).exec l =
      (.ok ((pendingHook? l.frame.converted l.store conversion operands).map fun hook =>
        .convert hook.1 conversion (l.store.closure hook.2)), l) := by
  simp only [runHooks, exec_bind, exec_frame, exec_store, andThen_ok]
  cases pendingHook? l.frame.converted l.store conversion operands with
  | none => rfl
  | some hook => rfl

def afterHooks (operands : List (Nat × Value)) (conversion : Conversion) (next : Handler σ Move) :
    Handler σ Move := do
  match ← runHooks operands conversion with
  | some move => return move
  | none => next

theorem exec_afterHooks_none {operands : List (Nat × Value)} {conversion : Conversion}
    {l : Local σ} (done : pendingHook? l.frame.converted l.store conversion operands = none)
    (next : Handler σ Move) : (afterHooks operands conversion next).exec l = next.exec l := by
  simp [afterHooks, done]

theorem exec_afterHooks_some {operands : List (Nat × Value)} {conversion : Conversion}
    {l : Local σ} {hook : Nat × Nat}
    (pending : pendingHook? l.frame.converted l.store conversion operands = some hook)
    (next : Handler σ Move) :
    (afterHooks operands conversion next).exec l =
      (.ok (.convert hook.1 conversion (l.store.closure hook.2)), l) := by
  simp [afterHooks, pending]

theorem pendingHook?_map (spots : Nat → Nat) {converted converted' : NodeMap Value} (s : Store σ)
    (conversion : Conversion) (operands : List (Nat × Value))
    (same : ∀ operand ∈ operands,
      converted'.find? (spots operand.1) = converted.find? operand.1) :
    pendingHook? converted' s conversion (operands.map fun operand => (spots operand.1, operand.2)) =
      (pendingHook? converted s conversion operands).map fun hook => (spots hook.1, hook.2) := by
  induction operands with
  | nil => rfl
  | cons operand rest ih =>
    obtain ⟨number, value⟩ := operand
    have first : converted'.contains (spots number) = converted.contains number :=
      congrArg Option.isSome (same (number, value) (List.mem_cons_self ..))
    have later := ih fun operand member => same operand (List.mem_cons_of_mem _ member)
    simp only [List.map_cons, pendingHook?, first, later]
    cases converted.contains number with
    | true => rfl
    | false =>
      cases s.scriptHook? value conversion.hook with
      | some id => rfl
      | none => rfl

theorem mem_of_pendingHook? {converted : NodeMap Value} {s : Store σ} {conversion : Conversion}
    {operands : List (Nat × Value)} {hook : Nat × Nat}
    (pending : pendingHook? converted s conversion operands = some hook) :
    ∃ operand ∈ operands, operand.1 = hook.1 := by
  induction operands with
  | nil => cases pending
  | cons operand rest ih =>
    unfold pendingHook? at pending
    have later (found : pendingHook? converted s conversion rest = some hook) :
        ∃ other ∈ operand :: rest, other.1 = hook.1 := by
      obtain ⟨other, member, same⟩ := ih found
      exact ⟨other, List.mem_cons_of_mem _ member, same⟩
    split at pending
    · exact later pending
    · split at pending
      · cases pending
        exact ⟨operand, List.mem_cons_self .., rfl⟩
      · exact later pending

def decide (host : Host σ) (test : Nat) (g : Bool → Handler σ Move) : Handler σ Move := do
  match ← takeCondition host test with
  | .error move => return move
  | .ok truth => g truth

def decided (host : Host σ) (test : Nat) (g : Bool → Handler σ Move) : Handler σ Move := do
  let value ← takeConverted test
  let truth ← act (host.toBoolean value)
  g truth

theorem exec_decide (test : Nat) (g : Bool → Handler σ Move) (l : Local σ) :
    (decide host test g).exec l =
      (afterHooks [(test, l.frame.peek test)] .toBoolean (decided host test g)).exec l := by
  simp only [decide, takeCondition, afterHooks, exec_bind, exec_frame, andThen_ok, exec_runHooks]
  cases pendingHook? l.frame.converted l.store .toBoolean [(test, l.frame.peek test)] with
  | some hook => rfl
  | none =>
    simp only [Option.map_none, decided, exec_bind, exec_takeConverted, andThen_ok]
    rcases (act (host.toBoolean _)).exec _ with ⟨e | truth, after⟩
    · rfl
    · rfl

theorem chooseBranch_eq (node test : Nat) :
    chooseBranch host node test = decide host test fun truth =>
      if truth then do return .descend (← requiredChild node 1)
      else do
        match (← code).child node 2 with
        | some branch => return .descend branch
        | none => return .finish .undefined := by
  unfold chooseBranch decide
  congr 1
  funext answer
  rcases answer with move | (_ | _)
  · rfl
  · rfl
  · rfl

theorem loopTest_eq (test body : Nat) :
    loopTest host test body = decide host test fun truth =>
      if truth then return .descend body else return .finish .undefined := by
  unfold loopTest decide
  congr 1
  funext answer
  rcases answer with move | (_ | _)
  · rfl
  · rfl
  · rfl

theorem chooseOperand_eq (node test : Nat) :
    chooseOperand host node test = decide host test fun truth => do
      return .descend (← requiredChild node (if truth then 1 else 2)) := by
  unfold chooseOperand decide
  congr 1
  funext answer
  rcases answer with move | (_ | _)
  · rfl
  · rfl
  · rfl

end Handler

/-! ## Hooks of operands -/

/-- The values that were converted for the operands `0`, `1`, … below `count` stand under the
positions `spots` of the operands, and otherwise nothing has changed. -/
structure Spread (spots : Nat → Nat) (count : Nat) (numbered before after : NodeMap Value) :
    Prop where
  inside : ∀ j < count, after.find? (spots j) = numbered.find? j
  outside : ∀ n, (∀ j < count, n ≠ spots j) → after.find? n = before.find? n
  beyond : ∀ j, count ≤ j → numbered.find? j = none

namespace Spread

variable {spots : Nat → Nat} {count : Nat} {numbered before after : NodeMap Value}

theorem empty (absent : ∀ j < count, before.find? (spots j) = none) :
    Spread spots count .empty before before :=
  ⟨absent, fun _ _ => rfl, fun _ _ => rfl⟩

theorem insert (spread : Spread spots count numbered before after)
    (distinct : ∀ i < count, ∀ j < count, spots i = spots j → i = j) {j : Nat} (bound : j < count)
    (value : Value) :
    Spread spots count (numbered.insert j value) before (after.insert (spots j) value) := by
  constructor
  · intro i bound'
    rw [NodeMap.find?_insert, NodeMap.find?_insert]
    by_cases same : i = j
    · rw [same, if_pos rfl, if_pos rfl]
    · rw [if_neg same, if_neg fun equal => same (distinct i bound' j bound equal)]
      exact spread.inside i bound'
  · intro n elsewhere
    rw [NodeMap.find?_insert, if_neg (elsewhere j bound)]
    exact spread.outside n elsewhere
  · intro i above
    rw [NodeMap.find?_insert, if_neg (by omega)]
    exact spread.beyond i above

theorem erase_one (spread : Spread spots 1 numbered before after)
    (absent : before.find? (spots 0) = none) : after.erase (spots 0) = before := by
  apply NodeMap.ext
  intro n
  rw [NodeMap.find?_erase]
  split
  · rename_i same
    rw [same, absent]
  · apply spread.outside
    intro j bound
    cases Nat.lt_one_iff.mp bound
    assumption

theorem erase_two (spread : Spread spots 2 numbered before after)
    (absent : before.find? (spots 0) = none) (absent' : before.find? (spots 1) = none) :
    (after.erase (spots 0)).erase (spots 1) = before := by
  apply NodeMap.ext
  intro n
  simp only [NodeMap.find?_erase]
  split
  · rename_i same
    rw [same, absent']
  · split
    · rename_i same
      rw [same, absent]
    · apply spread.outside
      intro j bound
      have : j = 0 ∨ j = 1 := by omega
      rcases this with rfl | rfl
      · assumption
      · assumption

def two (first second : Nat) : Nat → Nat
  | 0 => first
  | _ => second

theorem two_distinct {first second : Nat} (differ : first ≠ second) :
    ∀ i < 2, ∀ j < 2, two first second i = two first second j → i = j := by
  intro i bound j bound' same
  match i, j with
  | 0, 0 => rfl
  | 0, 1 => exact absurd same differ
  | 1, 0 => exact absurd same.symm differ
  | 1, 1 => rfl

theorem two_empty {first second : Nat} (absent : before.find? first = none)
    (absent' : before.find? second = none) : Spread (two first second) 2 .empty before before := by
  apply empty
  intro j bound
  match j with
  | 0 => exact absent
  | 1 => exact absent'

end Spread

/-- A node is met again after each hook, until there is none left. -/
theorem simulates_settle (agrees : Agrees host k) (keeps : host.Keeps) (spots : Nat → Nat)
    (count : Nat) {n p : Nat} {memo before : NodeMap Value} {conversion : Conversion}
    {operands : Store σ → List (Nat × Value)} {finish : Handler σ Move}
    {f : NodeMap Value → Eval σ β} {K : β → Store σ → Behaviour σ}
    {R : Value → Store σ → Behaviour σ}
    (distinct : ∀ i < count, ∀ j < count, spots i = spots j → i = j)
    (bounded : ∀ s, ∀ operand ∈ operands s, operand.1 < count)
    (placed : Store σ → List (Nat × Value))
    (places : ∀ s, placed s = (operands s).map fun operand => (spots operand.1, operand.2))
    (folds : ∀ q, q = p ∨ q = n → ∀ converted s,
      (Handler.node host n).exec ⟨c.frame n q memo converted, s⟩ =
        (Handler.afterHooks (placed s) conversion finish).exec ⟨c.frame n q memo converted, s⟩)
    {few : Nat} (next : ∀ q numbered after s, Spread spots count numbered before after →
      s.Bodies → Simulates few (f numbered) s
        (c.resulting host (finish.exec ⟨c.frame n q memo after, s⟩)) K R)
    (rounds : Nat) (enough : rounds ≤ k + 1) (q : Nat) (met : q = p ∨ q = n)
    (numbered after : NodeMap Value) (spread : Spread spots count numbered before after)
    (s : Store σ) (bodies : s.Bodies) :
    Simulates (min rounds (few + 1))
      (Evaluator.settle host c.depthLimit (Evaluator.eval host c.depthLimit k) c.here conversion
        operands rounds numbered >>= f) s
      ((c.state s n q memo after).behaviour host) K R := by
  -- By induction on the rounds. After a hook the node is met from itself, with one more conversion.
  induction rounds generalizing q numbered after s with
  | zero =>
    rw [c.behaviour_state, Nat.zero_min]
    rfl
  | succ rounds ih =>
    rw [Nat.add_min_add_right]
    -- Both sides look for the hook among the same values, under different names.
    have named := Handler.pendingHook?_map spots s conversion (operands s)
      fun operand member => spread.inside operand.1 (bounded s operand member)
    rw [← places] at named
    apply Setting.simulates_enter
    rw [folds q met after s]
    unfold Evaluator.settle
    rw [bind_assoc]
    apply Simulates.store
    cases pending : Handler.pendingHook? numbered s conversion (operands s) with
    | none =>
      rw [Handler.exec_afterHooks_none (by rw [Setting.frame_converted, named, pending]; rfl)]
      simp only [pure_bind]
      exact (next q numbered after s spread bodies).of_le (Nat.min_le_right ..)
    | some hook =>
      obtain ⟨operand, id⟩ := hook
      have bound : operand < count := by
        obtain ⟨other, member, same⟩ := Handler.mem_of_pendingHook? pending
        rw [← show other.1 = operand from same]
        exact bounded s other member
      rw [Handler.exec_afterHooks_some (by rw [Setting.frame_converted, named, pending]; rfl)]
      simp only [bind_assoc]
      apply simulates_hook agrees keeps bodies id (spots operand) conversion (by omega)
      intro value s' bodies'
      exact (ih (by omega) n (.inr rfl) _ _ (spread.insert distinct bound value) s' bodies').of_le
        (by omega)

section Tested

variable {path : List Nat} {i : Nat} {part : Rose Node} {memo converted : NodeMap Value}
  (clear : Clear c (path ++ [i]) part memo converted)
  (above : (Outline.ofRose c.tree).parent (c.tree.place (path ++ [i])) = some (c.tree.place path))
  (plain : Handler.isTarget (.ofRose c.tree) (c.tree.place (path ++ [i])) = false)
  {s : Store σ} (bodies : s.Bodies) {few : Nat} (fewer : few ≤ k)
include clear above plain bodies fewer

theorem simulates_settled (agrees : Agrees host k) (keeps : host.Keeps) {conversion : Conversion}
    (finish : Handler σ Move) {f : Value → NodeMap Value → Eval σ β}
    {K : β → Store σ → Behaviour σ}
    (folds : ∀ q, q = c.tree.place (path ++ [i]) ∨ q = c.tree.place path →
      ∀ memo converted s,
      (Handler.node host (c.tree.place path)).exec
          ⟨c.frame (c.tree.place path) q memo converted, s⟩ =
        (Handler.afterHooks [(c.tree.place (path ++ [i]),
            (memo.find? (c.tree.place (path ++ [i]))).getD .undefined)] conversion finish).exec
          ⟨c.frame (c.tree.place path) q memo converted, s⟩)
    (next : ∀ value q numbered after s', after.find? (c.tree.place (path ++ [i])) =
        numbered.find? 0 → after.erase (c.tree.place (path ++ [i])) = converted → s'.Bodies →
      Simulates few (f value numbered) s'
        (c.resulting host (finish.exec ⟨c.frame (c.tree.place path) q
          (memo.insert (c.tree.place (path ++ [i])) value) after, s'⟩)) K (c.given host)) :
    Simulates few (do
        let value ← Evaluator.eval host c.depthLimit k c.here part
        let numbered ← Evaluator.settleValues host c.depthLimit k
          (Evaluator.eval host c.depthLimit k) c.here conversion [value]
        f value numbered) s
      ((c.state s (c.tree.place (path ++ [i])) (c.tree.place path) memo converted).behaviour host)
      K (c.given host) := by
  apply Simulates.bind ((agrees c (path ++ [i]) (c.tree.place path) part s memo converted clear
    above plain bodies).of_le fewer)
  intro value s' bodies'
  have waits (q : Nat) (either : q = c.tree.place (path ++ [i]) ∨ q = c.tree.place path)
      (converted' : NodeMap Value) (s'' : Store σ) :
      (Handler.node host (c.tree.place path)).exec ⟨c.frame (c.tree.place path) q
          (memo.insert (c.tree.place (path ++ [i])) value) converted', s''⟩ =
        (Handler.afterHooks [(c.tree.place (path ++ [i]), value)] conversion finish).exec
          ⟨c.frame (c.tree.place path) q (memo.insert (c.tree.place (path ++ [i])) value)
            converted', s''⟩ := by
    rw [folds q either, NodeMap.find?_insert, if_pos rfl]
    rfl
  have fits : few ≤ min (k + 1) (few + 1) := by omega
  apply Simulates.of_le ?_ fits
  -- The only operand is the child, and its conversion is kept under its position.
  apply simulates_settle agrees keeps (fun _ => c.tree.place (path ++ [i])) 1 (by omega) (by simp)
    (fun _ => [(c.tree.place (path ++ [i]), value)]) (fun _ => rfl) waits ?_ (k + 1)
    (Nat.le_refl _) _ (.inl rfl) _ _ (Spread.empty fun _ _ => clear.unsettled) s' bodies'
  intro q numbered after s'' spread bodies''
  exact next value q numbered after s'' (spread.inside 0 (by omega))
    (spread.erase_one clear.unsettled) bodies''

theorem simulates_condition (agrees : Agrees host k) (keeps : host.Keeps)
    {g : Bool → Handler σ Move} {f : Bool → Eval σ β} {K : β → Store σ → Behaviour σ}
    (turns : ∀ q, q = c.tree.place (path ++ [i]) ∨ q = c.tree.place path → ∀ memo converted s,
      (Handler.node host (c.tree.place path)).exec
          ⟨c.frame (c.tree.place path) q memo converted, s⟩ =
        (Handler.decide host (c.tree.place (path ++ [i])) g).exec
          ⟨c.frame (c.tree.place path) q memo converted, s⟩)
    (next : ∀ truth q s', s'.Bodies → Simulates few (f truth) s'
      (c.resulting host ((g truth).exec ⟨c.frame (c.tree.place path) q memo converted, s'⟩)) K
      (c.given host)) :
    Simulates few (Evaluator.condition host c.depthLimit k (Evaluator.eval host c.depthLimit k)
        c.here part >>= f) s
      ((c.state s (c.tree.place (path ++ [i])) (c.tree.place path) memo converted).behaviour host)
      K (c.given host) := by
  simp only [Evaluator.condition, bind_assoc]
  apply simulates_settled clear above plain bodies fewer agrees keeps
    (Handler.decided host (c.tree.place (path ++ [i])) g)
  · intro q met memo' converted' s'
    rw [turns q met, Handler.exec_decide]
    rfl
  · intro value q numbered after s' same restored bodies'
    simp only [Handler.decided, Handler.exec_bind, Handler.exec_takeConverted, Handler.andThen_ok,
      Setting.frame_converted, Setting.frame_peek, NodeMap.find?_insert, if_true, same,
      Option.getD_some, Setting.frame_discard, Setting.frame_discardConverted, restored,
      NodeMap.erase_insert clear.absent, Handler.exec_act]
    apply Simulates.act (keeps.toBoolean _) bodies'
    · intro e s'' run
      rw [run]
      exact Setting.resulting_error _ _
    · intro truth s'' run bodies''
      rw [run]
      exact next truth q s'' bodies''

end Tested

/-! ## All children in turn -/

namespace NodeMap

def insertAll (m : NodeMap Value) (entries : List (Nat × Value)) : NodeMap Value :=
  entries.foldl (fun m entry => m.insert entry.1 entry.2) m

theorem insertAll_concat (m : NodeMap Value) (entries : List (Nat × Value)) (n : Nat)
    (value : Value) : m.insertAll (entries ++ [(n, value)]) = (m.insertAll entries).insert n value := by
  simp [insertAll]

theorem find?_insertAll (m : NodeMap Value) (entries : List (Nat × Value)) {n : Nat}
    (absent : n ∉ entries.map (·.1)) : (m.insertAll entries).find? n = m.find? n := by
  induction entries generalizing m with
  | nil => rfl
  | cons entry rest ih =>
    simp only [List.map_cons, List.mem_cons, not_or] at absent
    show ((m.insert entry.1 entry.2).insertAll rest).find? n = m.find? n
    rw [ih _ absent.2, find?_insert, if_neg absent.1]

theorem erase_insertAll (m : NodeMap Value) (entries : List (Nat × Value)) {n : Nat}
    (absent : n ∉ entries.map (·.1)) :
    (m.insertAll entries).erase n = (m.erase n).insertAll entries := by
  induction entries generalizing m with
  | nil => rfl
  | cons entry rest ih =>
    simp only [List.map_cons, List.mem_cons, not_or] at absent
    show ((m.insert entry.1 entry.2).insertAll rest).erase n =
      ((m.erase n).insert entry.1 entry.2).insertAll rest
    rw [ih _ absent.2, erase_insert_of_ne absent.1]

end NodeMap

section Taking

variable {n p : Nat} {memo converted : NodeMap Value} {s : Store σ}

theorem exec_take_first {m : Nat} {value : Value} {rest : List (Nat × Value)}
    (absent : memo.find? m = none) (distinct : m ∉ rest.map (·.1)) :
    (Handler.take m : Handler σ Value).exec
        ⟨c.frame n p (memo.insertAll ((m, value) :: rest)) converted, s⟩ =
      (.ok value, ⟨c.frame n p (memo.insertAll rest) converted, s⟩) := by
  have kept : memo.insertAll ((m, value) :: rest) = (memo.insert m value).insertAll rest := rfl
  simp only [Handler.exec_take, Setting.frame_peek, Setting.frame_discard, kept,
    NodeMap.find?_insertAll _ _ distinct, NodeMap.erase_insertAll _ _ distinct,
    NodeMap.find?_insert, if_true, Option.getD_some, NodeMap.erase_insert absent]

theorem exec_takeAll (entries : List (Nat × Value)) (distinct : (entries.map (·.1)).Nodup)
    (absent : ∀ m ∈ entries.map (·.1), memo.find? m = none) :
    (Handler.takeAll (entries.map (·.1)) : Handler σ (List Value)).exec
        ⟨c.frame n p (memo.insertAll entries) converted, s⟩ =
      (.ok (entries.map (·.2)), ⟨c.frame n p memo converted, s⟩) := by
  induction entries with
  | nil => rfl
  | cons entry rest ih =>
    obtain ⟨m, value⟩ := entry
    simp only [List.map_cons, List.nodup_cons] at distinct
    have others := ih distinct.2 fun m' member => absent m' (List.mem_cons_of_mem _ member)
    simp [Handler.takeAll, exec_take_first (absent m (List.mem_cons_self ..)) distinct.1, others,
      -Handler.exec_take]

end Taking

section Parts

def Setting.kept (c : Setting) (path : List Nat) (values : List Value) : List (Nat × Value) :=
  values.mapIdx fun i value => (c.tree.place (path ++ [i]), value)

variable {path : List Nat} {sub : Rose Node} {memo converted : NodeMap Value}

theorem Setting.kept_concat (values : List Value) (value : Value) :
    memo.insertAll (c.kept path (values ++ [value])) =
      (memo.insertAll (c.kept path values)).insert (c.tree.place (path ++ [values.length])) value := by
  rw [kept, List.mapIdx_concat, NodeMap.insertAll_concat]
  rfl

theorem Setting.mem_kept {values : List Value} {n : Nat}
    (few : values.length ≤ sub.children.length) (member : n ∈ (c.kept path values).map (·.1)) :
    ∃ i part, i < values.length ∧ sub.children[i]? = some part ∧ n = c.tree.place (path ++ [i]) := by
  obtain ⟨i, bound, rfl⟩ := List.mem_iff_getElem.mp member
  simp only [Setting.kept, List.length_map, List.length_mapIdx] at bound
  refine ⟨i, sub.children.get ⟨i, by omega⟩, bound, List.getElem?_eq_getElem _, ?_⟩
  simp [Setting.kept]

variable (clear : Clear c path sub memo converted)
include clear

theorem Clear.kept_positions {values : List Value} (count : values.length = sub.children.length) :
    (c.kept path values).map (·.1) = (Outline.ofRose c.tree).children (c.tree.place path) := by
  rw [Outline.children_place clear.found, Rose.childPaths, List.map_map, ← count]
  apply List.ext_getElem
  · simp [Setting.kept]
  · intro i bound bound'
    simp [Setting.kept]

theorem Clear.kept_distinct {values : List Value} (few : values.length ≤ sub.children.length) :
    ((c.kept path values).map (·.1)).Pairwise (· < ·) := by
  rw [List.pairwise_iff_getElem]
  intro i j bound bound' less
  simp only [Setting.kept, List.length_map, List.length_mapIdx] at bound bound'
  have selected : sub.children[i]? = some (sub.children.get ⟨i, by omega⟩) :=
    List.getElem?_eq_getElem _
  have before := clear.before selected less
  have := (sub.children.get ⟨i, by omega⟩).size_pos
  simp only [Setting.kept, List.getElem_map, List.getElem_mapIdx]
  omega

theorem Clear.kept_absent {values : List Value} (count : values.length = sub.children.length) :
    ∀ m ∈ (c.kept path values).map (·.1), memo.find? m = none := by
  intro m member
  obtain ⟨i, part, bound, selected, rfl⟩ := Setting.mem_kept (Nat.le_of_eq count) member
  exact (clear.child selected).absent

theorem Clear.next {values : List Value} {part : Rose Node}
    (selected : sub.children[values.length]? = some part) :
    Clear c (path ++ [values.length]) part (memo.insertAll (c.kept path values)) converted := by
  have inner := clear.child selected
  refine ⟨inner.found, inner.shaped, ?_, inner.settled⟩
  intro n lower upper
  have few := (List.getElem?_eq_some_iff.mp selected).1
  rw [NodeMap.find?_insertAll]
  · exact inner.fresh n lower upper
  · intro member
    obtain ⟨i, earlier, bound, chosen, rfl⟩ := Setting.mem_kept (Nat.le_of_lt few) member
    have := clear.before chosen bound
    have := earlier.size_pos
    omega

section Walked

-- A node of this kind goes from child to child and then, with all values in the memo, finishes.
variable (agrees : Agrees host k)
  (plain : ∀ i part, sub.children[i]? = some part →
    Handler.isTarget (.ofRose c.tree) (c.tree.place (path ++ [i])) = false)
  (finish : Handler σ Move)
  (walks : ∀ q memo s, (Handler.node host (c.tree.place path)).exec
      ⟨c.frame (c.tree.place path) q memo converted, s⟩ =
    Handler.andThen (Handler.descendOr finish) ((Handler.nextChild (c.tree.place path)).exec
      ⟨c.frame (c.tree.place path) q memo converted, s⟩))
  {f : List Value → Eval σ β} {K : β → Store σ → Behaviour σ}
  (next : ∀ values q s', values.length = sub.children.length → s'.Bodies →
    Simulates k (f values) s' (c.resulting host (finish.exec ⟨c.frame (c.tree.place path) q
      (memo.insertAll (c.kept path values)) converted, s'⟩)) K (c.given host))
include agrees plain walks next

/-- The children from one of them on, with the values of those before it. -/
theorem simulates_parts (rest : List (Rose Node)) (values : List Value) (first : Rose Node)
    (whole : sub.children.drop values.length = first :: rest) (s : Store σ) (bodies : s.Bodies) :
    Simulates k
      (Evaluator.evalAll (Evaluator.eval host c.depthLimit k c.here) (first :: rest) >>=
        fun more => f (values ++ more)) s
      ((c.state s (c.tree.place (path ++ [values.length])) (c.tree.place path)
        (memo.insertAll (c.kept path values)) converted).behaviour host) K (c.given host) := by
  -- By induction on the children left; the memo holds the values of all children before.
  induction rest generalizing values first s with
  | nil =>
    obtain ⟨selected, remaining⟩ := Rose.children_of_drop whole
    have last : sub.children.length = values.length + 1 := by
      have ended := congrArg List.length whole
      have := (List.getElem?_eq_some_iff.mp selected).1
      rw [List.length_drop, List.length_singleton] at ended
      omega
    simp only [Evaluator.evalAll, pure_bind, bind_assoc]
    apply Simulates.bind (agrees c _ _ first s _ converted (clear.next selected)
      (clear.above selected) (plain _ _ selected) bodies)
    intro value s' bodies'
    apply Setting.simulates_step
    rw [← Setting.kept_concat, walks, Setting.exec_nextChild_resume clear.found selected,
      List.getElem?_eq_none (Nat.le_of_eq last)]
    exact next (values ++ [value]) _ s' (by simp [last]) bodies'
  | cons second rest ih =>
    obtain ⟨selected, remaining⟩ := Rose.children_of_drop whole
    obtain ⟨following, -⟩ := Rose.children_of_drop remaining
    simp only [Evaluator.evalAll, pure_bind, bind_assoc]
    apply Simulates.bind (agrees c _ _ first s _ converted (clear.next selected)
      (clear.above selected) (plain _ _ selected) bodies)
    intro value s' bodies'
    apply Setting.simulates_step
    rw [← Setting.kept_concat, walks, Setting.exec_nextChild_resume clear.found selected,
      following]
    have go := ih (values ++ [value]) second (by simpa using remaining) s' bodies'
    simp only [Evaluator.evalAll, pure_bind, bind_assoc, List.append_assoc, List.singleton_append,
      List.length_append, List.length_singleton] at go
    exact go

theorem simulates_all (s : Store σ) (bodies : s.Bodies) {p : Nat}
    (entered : (c.frame (c.tree.place path) p memo converted).visit (c.tree.place path) =
      .ok .enter) :
    Simulates (k + 1)
      (Evaluator.evalAll (Evaluator.eval host c.depthLimit k c.here) sub.children >>= f) s
      ((c.state s (c.tree.place path) p memo converted).behaviour host) K (c.given host) := by
  apply Setting.simulates_enter
  rw [walks, Setting.exec_nextChild_enter clear.found entered]
  cases whole : sub.children with
  | nil => exact next [] p s (by rw [whole]; rfl) bodies
  | cons first rest =>
    exact simulates_parts clear agrees plain finish walks next rest [] first whole s bodies

end Walked

end Parts

end StepScript
