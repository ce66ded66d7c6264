import StepScript.Proofs.Outline.BoundedRefinement

/-! A pool of outlines with weights of 32 bits.

A call gives the pool that weights of any size give, or none. As long as all outlines
that a series of calls makes are shallow, it gives one throughout; and whatever it gives,
the outlines are those of trees, if no copy starts just past the last node.
-/

set_option autoImplicit false

namespace StepScript.Outline

variable {α β : Type}

namespace Bounded

/-! ## Calls -/

/-- The pool with outline `i` changed, or as it is where the change fails. -/
def change (pool : List (Outline α)) (i : Nat)
    (f : Outline α → Option (Except OutlineError (Outline α × β))) : Option (List (Outline α)) :=
  match pool[i]? with
  | none => some pool
  | some t => (f t).map fun
    | .ok (changed, _) => pool.set i changed
    | .error _ => pool

def step (pool : List (Outline α)) : Call α → Option (List (Outline α))
  | .new root => some (pool ++ [singleton root])
  | .copy i n =>
    match pool[i]? with
    | none => some pool
    | some t =>
      if n ≤ t.size then (subtree t n).map fun copied => pool ++ [copied] else some pool
  | .set i n value => some ((Call.set i n value).step pool)
  | .edit i request => change pool i (apply · request)
  | .graft i parent j =>
    match pool[j]? with
    | none => some pool
    | some scion => change pool i (graft · parent scion)
  | .graftCopy i parent j n =>
    match pool[j]? with
    | none => some pool
    | some source => change pool i (graftCopy · parent source n)

section

variable {pool : List (Outline α)}

theorem change_eq {i : Nat} {f : Outline α → Except OutlineError (Outline α × β)}
    {g : Outline α → Option (Except OutlineError (Outline α × β))}
    (same : ∀ t ∈ pool, (∀ changed n, f t = .ok (changed, n) → changed.Narrow) →
      g t = some (f t))
    (after : ∀ changed, Outline.change pool i f = some (.ok changed) → ∀ t ∈ changed, t.Narrow) :
    change pool i g = some (match Outline.change pool i f with
      | some (.ok changed) => changed
      | _ => pool) := by
  unfold change
  unfold Outline.change at after ⊢
  cases selected : pool[i]? with
  | none => rfl
  | some t =>
    obtain ⟨inside, rfl⟩ := List.getElem?_eq_some_iff.mp selected
    rw [selected] at after
    have narrow (changed : Outline α) (n : β) (done : f pool[i] = .ok (changed, n)) :
        changed.Narrow := by
      have stored := after (pool.set i changed) (by simp [bind, done, Except.map, pure])
      exact stored changed (List.mem_set inside changed)
    simp only [same pool[i] (List.getElem_mem inside) narrow, bind, Option.bind_some,
      Option.map_some, pure]
    cases f pool[i] with
    | error e => rfl
    | ok answer => rfl

theorem step_copy_eq {i node : Nat} (grown : ∀ t ∈ pool, t.Grown)
    (shallow : ∀ t ∈ pool, t.Shallow) (spared : (Call.copy i node).copiesEnd pool = false) :
    step pool (.copy i node) = some ((Call.copy i node).step pool) := by
  rw [step, Call.step, Call.perform]
  cases selected : pool[i]? with
  | none => rfl
  | some t =>
    have member := List.mem_of_getElem? selected
    have short : node ≠ t.size := by simpa [Call.copiesEnd, selected] using spared
    simp only [bind, Option.bind_some, atPlace?, pure]
    split
    case isTrue place =>
      have inside : node < t.size := by omega
      have copied := grown_subtree (grown t member) inside
      have shallow' := shallow_subtree (grown t member) (shallow t member) inside
      rw [subtree_eq (grown t member) (shallow t member) inside
        (shallow'.answered copied).narrow]
      rfl
    case isFalse => rfl

/-- A call computes with numbers that fit, as long as it finds shallow outlines and leaves such. -/
theorem step_eq {call : Call α} (grown : ∀ t ∈ pool, t.Grown) (shallow : ∀ t ∈ pool, t.Shallow)
    (spared : call.copiesEnd pool = false)
    (copies : ∀ i edit, call = .edit i edit → CopiesShallow edit)
    (after : ∀ t ∈ call.step pool, t.Shallow) : step pool call = some (call.step pool) := by
  -- After a call that succeeds, shallow outlines are narrow because they are trees.
  have narrow (changed : List (Outline α)) (done : call.perform pool = some (.ok changed)) :
      ∀ t ∈ changed, t.Narrow := by
    intro t member
    have kept : call.step pool = changed := by rw [Call.step, done]
    exact ((after t (kept ▸ member)).answered (grown_perform grown spared done t member)).narrow
  cases call with
  | new root => rfl
  | copy i node => exact step_copy_eq grown shallow spared
  | set i node value => rfl
  | edit i request =>
    exact change_eq
      (fun t member => apply_eq (grown t member) (shallow t member) (copies i request rfl)) narrow
  | graft i parent j =>
    rw [Call.perform] at narrow
    rw [Call.step, Call.perform, step]
    cases selected : pool[j]? with
    | none => rfl
    | some scion =>
      rw [selected] at narrow
      have nonempty := (grown scion (List.mem_of_getElem? selected)).sound.2
      exact change_eq
        (fun t member => graft_eq (grown t member) (shallow t member) nonempty) narrow
  | graftCopy i parent j node =>
    rw [Call.perform] at narrow
    rw [Call.step, Call.perform, step]
    cases selected : pool[j]? with
    | none => rfl
    | some source =>
      rw [selected] at narrow
      have member' := List.mem_of_getElem? selected
      exact change_eq (fun t member => graftCopy_eq (grown t member) (shallow t member)
        (grown source member') (shallow source member')) narrow

/-- So does a series of calls, as long as all outlines on the way are shallow. -/
theorem run_eq {calls : List (Call α)} (grown : ∀ t ∈ pool, t.Grown)
    (spared : Call.sparing pool calls = true)
    (copies : ∀ i edit, .edit i edit ∈ calls → CopiesShallow edit)
    (shallow : ∀ n, ∀ t ∈ (calls.take n).foldl (fun pool call => call.step pool) pool, t.Shallow) :
    calls.foldlM step pool = some (calls.foldl (fun pool call => call.step pool) pool) := by
  induction calls generalizing pool with
  | nil => rfl
  | cons call calls ih =>
    rw [Call.sparing, Bool.and_eq_true, Bool.not_eq_true'] at spared
    have first := step_eq grown (shallow 0) spared.1
      (fun i edit same => copies i edit (by simp [same])) (shallow 1)
    have rest := ih (grown_step grown spared.1) spared.2
      (fun i edit member => copies i edit (List.mem_cons_of_mem _ member))
      (fun n => shallow (n + 1))
    rw [List.foldlM_cons, first]
    exact rest

end

/-! ## Right pools -/

theorem sound_change {f : Outline α → Except OutlineError (Outline α × β)}
    {g : Outline α → Option (Except OutlineError (Outline α × β))}
    (right : ∀ t, Sound (g t) (f t)) (pool : List (Outline α)) (i : Nat) :
    Sound (change pool i g) (match Outline.change pool i f with
      | some (.ok changed) => changed
      | _ => pool) := by
  unfold change Outline.change
  cases pool[i]? with
  | none => exact .some pool
  | some t =>
    simp only [bind, Option.bind_some, pure]
    have whole := (right t).map fun
      | .ok (changed, _) => pool.set i changed
      | .error _ => pool
    cases answer : f t with
    | error e =>
      rw [answer] at whole
      exact whole
    | ok given =>
      rw [answer] at whole
      exact whole

theorem sound_step (pool : List (Outline α)) (call : Call α) :
    Sound (step pool call) (call.step pool) := by
  cases call with
  | new root => exact .some _
  | copy i n =>
    rw [step, Call.step, Call.perform]
    cases pool[i]? with
    | none => exact .some pool
    | some t =>
      simp only [bind, Option.bind_some, atPlace?, pure]
      split
      case isTrue place => exact (sound_subtree t n).map fun copied => pool ++ [copied]
      case isFalse => exact .some pool
  | set i n value => exact .some _
  | edit i request => exact sound_change (sound_apply · request) pool i
  | graft i parent j =>
    rw [step, Call.step, Call.perform]
    cases pool[j]? with
    | none => exact .some pool
    | some scion => exact sound_change (sound_graft · parent scion) pool i
  | graftCopy i parent j n =>
    rw [step, Call.step, Call.perform]
    cases pool[j]? with
    | none => exact .some pool
    | some source => exact sound_change (sound_graftCopy · parent source n) pool i

theorem sound_run (pool : List (Outline α)) (calls : List (Call α)) :
    Sound (calls.foldlM step pool) (calls.foldl (fun pool call => call.step pool) pool) := by
  induction calls generalizing pool with
  | nil => exact .some pool
  | cons call calls ih => exact (sound_step pool call).bind (ih _)

theorem subtree_size (t : Outline α) : subtree t t.size = some ⟨[]⟩ := by
  obtain ⟨entries⟩ := t
  have up : fit 1 = some 1 := rfl
  have down : fit (-1) = some (-1) := rfl
  simp [subtree, span, extent, size, shift, reweigh, weight, up, down]

end Bounded

/-- Through any series of calls in which no copy starts just past the last node, all outlines of
the pool are well formed and have nodes. A further call that succeeds spoils this exactly when it is
such a copy: it gives an outline without nodes, and grafting that is accepted under any node and
leaves an outline that is not well formed. Weights of 32 bits lead to the same pool or to none, and
to no other copy, graft or verdict on a shape; they pass the outlines of the pool that are
shallow. -/
theorem sound_of_calls (calls : List (Call α)) (spared : Call.sparing [] calls = true) :
    let pool := calls.foldl (fun pool call => call.step pool) []
    Sound (calls.foldlM Bounded.step []) pool ∧
    (∀ t ∈ pool, t.isWellFormed = true ∧ 1 ≤ t.size ∧ Sound (Bounded.isWellFormed t) true ∧
      (Bounded.isWellFormed t = some true ↔ t.Shallow)) ∧
    (∀ (call : Call α) (changed : List (Outline α)), call.perform pool = some (.ok changed) →
      Sound (Bounded.step pool call) changed ∧
      ((∀ t ∈ changed, t.isWellFormed = true ∧ 1 ≤ t.size) ↔ call.copiesEnd pool = false)) ∧
    ∀ i t, pool[i]? = some t →
      (Call.copy i t.size).perform pool = some (.ok (pool ++ [⟨[]⟩])) ∧
      Bounded.step pool (.copy i t.size) = some (pool ++ [⟨[]⟩]) ∧
      ∀ parent < t.size, t.size ≤ capacity →
        ∃ changed n, t.graft parent ⟨[]⟩ = .ok (changed, n) ∧
          Sound (Bounded.graft t parent ⟨[]⟩) (.ok (changed, n)) ∧ changed.isWellFormed = false := by
  intro pool
  have grown : ∀ t ∈ pool, t.Grown := grown_foldl (List.forall_mem_nil _) spared
  refine ⟨Bounded.sound_run [] calls, fun t member => ?_,
    fun call changed done => ⟨?_, fun sound => ?_, ?_⟩, fun i t selected => ⟨?_, ?_, ?_⟩⟩
  · obtain ⟨formed, some⟩ := (grown t member).sound
    exact ⟨formed, some, formed ▸ Bounded.sound_isWellFormed t, (grown t member).isWellFormed_iff⟩
  · have kept : call.step pool = changed := by rw [Call.step, done]
    exact kept ▸ Bounded.sound_step pool call
  · cases ends : call.copiesEnd pool with
    | false => rfl
    | true =>
      cases call with
      | copy i node =>
        obtain ⟨t, selected, same⟩ := (Option.any_eq_true _ _).mp ends
        obtain rfl := eq_of_beq same
        rw [perform_copy_size selected] at done
        cases done
        exact absurd (sound ⟨[]⟩ (by simp)).2 (Nat.not_succ_le_zero 0)
      | _ => cases ends
  · exact fun spared t member => (grown_perform grown spared done t member).sound
  · exact perform_copy_size selected
  · rw [Bounded.step]
    simp only [selected, Nat.le_refl, if_true, Bounded.subtree_size, Option.map_some]
  · intro parent inside room
    obtain ⟨changed, n, accepted, broken⟩ :=
      graft_nothing (grown t (List.mem_of_getElem? selected)) inside room
    exact ⟨changed, n, accepted, accepted ▸ Bounded.sound_graft t parent ⟨[]⟩, broken⟩

theorem sound_of_calls_of_graft :
    let calls : List (Call Char) :=
      [.new 'a', .edit 0 (.append 0 'b'), .copy 0 1, .graft 0 1 1, .edit 0 (.remove 2)]
    let pool := calls.foldl (fun pool call => call.step pool) []
    Call.sparing [] calls = true ∧ pool.map (·.size) = [2, 1] ∧
      (∀ t ∈ pool, t.isWellFormed = true ∧ 1 ≤ t.size) ∧
      calls.foldlM Bounded.step [] = some pool ∧
      (Call.copy 0 2).perform pool = some (.ok (pool ++ [⟨[]⟩])) ∧
      Bounded.step pool (.copy 0 2) = some (pool ++ [⟨[]⟩]) := by
  intro calls pool
  have spared : Call.sparing [] calls = true := by decide
  have answered : (calls.foldlM Bounded.step []).isSome := by decide
  obtain ⟨same, sound, -, ends⟩ := sound_of_calls calls spared
  obtain ⟨given, found⟩ := Option.isSome_iff_exists.mp answered
  obtain ⟨copied, bounded, -⟩ := ends 0 _ rfl
  exact ⟨spared, by decide, fun t member => ⟨(sound t member).1, (sound t member).2.1⟩,
    found.trans (congrArg some (same given found)), copied, bounded⟩

end StepScript.Outline
