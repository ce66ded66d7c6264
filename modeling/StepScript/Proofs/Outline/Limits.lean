import StepScript.Proofs.Outline.BoundedPool

/-! How deep outlines become.

The capacity of outlines is twice the number of nodes that it takes to make one too
deep for weights of 32 bits. A series of calls may put a node below a node below a
node, up to the capacity, and none is refused; but the weight of the last one does
not fit any more, once `2 ^ 31` nodes stand above it.
-/

set_option autoImplicit false

namespace StepScript.Outline

variable {α : Type}

/-! ## A chain -/

/-- The calls that make a chain from the root down. -/
def descent (value : α) (n : Nat) : List (Call α) :=
  .new value :: (List.range n).map fun k => .edit 0 (.append k value)

variable (value : α) (n : Nat)

theorem descent_succ : descent value (n + 1) = descent value n ++ [.edit 0 (.append n value)] := by
  rw [descent, List.range_succ, List.map_append]
  rfl

theorem size_chain : (chain value n).size = n + 1 := by
  rw [chain_eq_spine, size_spine]
  rfl

theorem append_chain (room : n + 1 < capacity) :
    (chain value n).append n value = .ok (chain value (n + 1), n + 1) := by
  rw [chain_eq_spine, chain_eq_spine]
  exact append_spine room (by omega)

theorem append_chain_bounded (room : n + 1 < capacity) : Bounded.append (chain value n) n value =
    if n + 1 < 2147483648 then some (.ok (chain value (n + 1), n + 1)) else none := by
  have fits : Fits (-1 - n - 1) ↔ n + 1 < 2147483648 := by
    unfold Fits
    omega
  rw [chain_eq_spine, chain_eq_spine, append_spine_bounded room (by omega)]
  simp only [fits]

theorem sparing_descent : Call.sparing [] (descent value n) = true := by
  have edits (pool : List (Outline α)) (nodes : List Nat) :
      Call.sparing pool (nodes.map fun k => .edit 0 (.append k value)) = true := by
    induction nodes generalizing pool with
    | nil => rfl
    | cons k nodes ih => exact ih _
  exact edits _ _

/-- Up to the capacity, a descent is not refused. -/
theorem foldl_descent (room : n < capacity) :
    (descent value n).foldl (fun pool call => call.step pool) [] = [chain value n] := by
  induction n with
  | zero => rfl
  | succ n ih =>
    rw [descent_succ, List.foldl_append, ih (by omega), List.foldl_cons, List.foldl_nil, Call.step,
      Call.perform]
    simp only [change, List.getElem?_cons_zero, bind, Option.bind_some, apply,
      append_chain value n room]
    rfl

/-- With weights of 32 bits it comes to an end before. -/
theorem foldlM_descent (room : n < capacity) : (descent value n).foldlM Bounded.step [] =
    if n < 2147483648 then some [chain value n] else none := by
  -- By induction on the calls; a call that does not fit ends the series.
  induction n with
  | zero => rfl
  | succ n ih =>
    have deeper : Bounded.step [chain value n] (.edit 0 (.append n value)) =
        if n + 1 < 2147483648 then some [chain value (n + 1)] else none := by
      rw [Bounded.step, Bounded.change]
      simp only [List.getElem?_cons_zero, Bounded.apply, append_chain_bounded value n room]
      split <;> rfl
    rw [descent_succ, List.foldlM_append, ih (by omega)]
    by_cases few : n < 2147483648
    · simp only [if_pos few, bind, Option.bind_some, List.foldlM_cons, List.foldlM_nil, deeper]
      split <;> rfl
    · rw [if_neg few, if_neg (by omega)]
      rfl

/-- In 32 bits the leaf of a long chain has no weight and no depth, and its shape no check. -/
theorem overflow_chain (many : 2147483648 ≤ n) :
    ¬ (chain value n).Narrow ∧ Bounded.depth (chain value n) n = none ∧
      Bounded.isWellFormed (chain value n) = none := by
  have grown : (chain value n).Grown := ⟨_, (ofRose_stem value n).symm⟩
  refine ⟨fun narrow => ?_, ?_, grown.isWellFormed_eq_none ?_⟩
  · have fits : Fits (-(n + 1)) := narrow ⟨-(n + 1), value⟩ (by simp [chain])
    unfold Fits at fits
    omega
  · rw [chain_eq_spine]
    exact depth_spine_bounded many
  · rw [chain_eq_spine]
    exact not_shallow_spine many

/-- Through any series of calls in which no copy starts just past the last node, 32 bits are enough
for the weights of an outline and for all sums of them exactly when the outline is shallow, which it
is if it has no more than `2 ^ 31` nodes. The calls themselves compute with numbers that fit, if all
outlines that they make are shallow. But the capacity does not keep outlines so: the calls that make
a chain of more nodes than that, up to the capacity, are all accepted, and 32 bits then hold neither
the last weight nor the sums for the last depth and for the check of the shape. -/
theorem limits_of_calls (calls : List (Call α)) (spared : Call.sparing [] calls = true)
    (value : α) :
    let pool (calls : List (Call α)) := calls.foldl (fun pool call => call.step pool) []
    (∀ t ∈ pool calls, (t.Answered ↔ t.Shallow) ∧
      (Bounded.isWellFormed t = some true ↔ t.Shallow) ∧ (t.size ≤ 2147483648 → t.Shallow)) ∧
    ((∀ i edit, .edit i edit ∈ calls → CopiesShallow edit) →
      (∀ n, ∀ t ∈ pool (calls.take n), t.Shallow) →
        calls.foldlM Bounded.step [] = some (pool calls)) ∧
    ∀ n, 2147483648 ≤ n → n < capacity →
      Call.sparing [] (descent value n) = true ∧ pool (descent value n) = [chain value n] ∧
      (chain value n).size = n + 1 ∧ ¬ (chain value n).Narrow ∧
      Bounded.depth (chain value n) n = none ∧ Bounded.isWellFormed (chain value n) = none ∧
      (descent value n).foldlM Bounded.step [] = none := by
  intro pool
  have nothing : ∀ t ∈ ([] : List (Outline α)), t.Grown := List.forall_mem_nil _
  refine ⟨fun t member => ?_, fun copies shallow => Bounded.run_eq nothing spared copies shallow,
    fun n many room => ?_⟩
  · have grown := grown_foldl nothing spared t member
    exact ⟨grown.answered_iff, grown.isWellFormed_iff, grown.shallow⟩
  · obtain ⟨wide, lost, unchecked⟩ := overflow_chain value n many
    have stopped := foldlM_descent value n room
    rw [if_neg (Nat.not_lt.mpr many)] at stopped
    exact ⟨sparing_descent value n, foldl_descent value n room, size_chain value n, wide, lost,
      unchecked, stopped⟩

theorem limits_of_calls_of_graft :
    let calls : List (Call Char) :=
      [.new 'a', .edit 0 (.append 0 'b'), .copy 0 1, .graft 0 1 1, .edit 0 (.remove 2)]
    let pool := calls.foldl (fun pool call => call.step pool) []
    Call.sparing [] calls = true ∧ (∀ t ∈ pool, t.Answered) ∧
      calls.foldlM Bounded.step [] = some pool ∧
      (descent 'c' 2147483648).foldlM Bounded.step [] = none := by
  intro calls pool
  have spared : Call.sparing [] calls = true := by decide
  obtain ⟨small, run, large⟩ := limits_of_calls calls spared 'c'
  have copies (i : Nat) (edit : Edit Char) (member : .edit i edit ∈ calls) :
      CopiesShallow edit := by
    simp only [calls, List.mem_cons, Call.edit.injEq, reduceCtorEq, false_or, or_false,
      List.not_mem_nil] at member
    rcases member with ⟨-, rfl⟩ | ⟨-, rfl⟩ <;> trivial
  have shallow (n : Nat) :
      ∀ t ∈ (calls.take n).foldl (fun pool call => call.step pool) [], t.Shallow := by
    have early : ∀ n ≤ 5,
        ∀ t ∈ (calls.take n).foldl (fun pool call => call.step pool) [], t.Shallow := by decide
    rcases Nat.le_total n 5 with inside | past
    · exact early n inside
    · have whole := early 5 (Nat.le_refl 5)
      rwa [List.take_of_length_le past]
  exact ⟨spared, fun t member => (small t member).1.mpr (shallow 5 t member), run copies shallow,
    (large 2147483648 (Nat.le_refl _) (by decide)).2.2.2.2.2.2⟩

end StepScript.Outline
