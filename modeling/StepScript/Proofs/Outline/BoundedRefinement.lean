import StepScript.Proofs.Outline.BoundedEditing
import StepScript.Proofs.Outline.BoundedNavigation
import StepScript.Proofs.Outline.Checking

/-! Edits with weights of 32 bits as edits of trees.

An edit with weights of 32 bits that gives an answer gives the right one, whatever the
outline is, and leaves weights that fit. So where the outline is shallow, and with it all
sums that an edit needs, there is an answer exactly if the weights of the result fit. This
carries over to series of edits and to the calls on a pool.
-/

set_option autoImplicit false

namespace StepScript.Outline

variable {α β γ : Type}

/-! ## Right answers -/

theorem Sound.checked {check : Except OutlineError Unit} {next : Option (Except OutlineError β)}
    {rest : Except OutlineError β} (later : check = .ok () → Sound next rest) :
    Sound (Bounded.checked check next) (check >>= fun _ => rest) := by
  cases check with
  | error e => exact .some _
  | ok => exact later rfl

namespace Bounded

theorem sound_shift (entries : List (Entry α)) (k : Nat) (amount : Int) :
    Sound (shift entries k amount) (Outline.shift entries k amount) := by
  rw [← reweigh_weight_add]
  exact (Sound.fit _).map _

theorem sound_prepend (t : Outline α) (parent : Nat) (value : α) :
    Sound (prepend t parent value) (t.prepend parent value) :=
  .checked fun _ => .checked fun _ => (Sound.fit _).bind (.some _)

theorem sound_append (t : Outline α) (parent : Nat) (value : α) :
    Sound (append t parent value) (t.append parent value) := by
  refine .checked fun _ => .checked fun _ => ?_
  split
  case isTrue leaf => exact (Sound.fit _).bind (.some _)
  case isFalse inner =>
    refine (sound_span t parent).bind ?_
    obtain ⟨stop, total⟩ := t.span parent
    have amount : 1 - total = -(total - 1) := by omega
    simp only [amount]
    exact (Sound.fit _).bind ((sound_shift _ _ _).bind (.some _))

theorem sound_graft (t : Outline α) (parent : Nat) (scion : Outline α) :
    Sound (graft t parent scion) (t.graft parent scion) := by
  refine .checked fun _ => .checked fun _ => ?_
  split
  case isTrue leaf => exact (sound_shift _ _ _).bind (.some _)
  case isFalse inner =>
    refine (sound_span t parent).bind ?_
    obtain ⟨stop, total⟩ := t.span parent
    have amount : 1 - total = -(total - 1) := by omega
    simp only [amount]
    exact (Sound.fit _).bind ((sound_shift _ _ _).bind ((sound_shift _ _ _).bind (.some _)))

theorem sound_subtree (t : Outline α) (node : Nat) : Sound (subtree t node) (t.subtree node) := by
  refine (sound_span t node).bind ?_
  rw [Outline.subtree]
  obtain ⟨stop, total⟩ := t.span node
  exact (Sound.fit _).bind ((sound_shift _ _ _).bind (.some _))

theorem sound_graftCopy (t : Outline α) (parent : Nat) (source : Outline α) (node : Nat) :
    Sound (graftCopy t parent source node) (t.graftCopy parent source node) :=
  .checked fun _ => (sound_subtree source node).bind (sound_graft t parent _)

theorem sound_clearChildren (t : Outline α) (node : Nat) :
    Sound (clearChildren t node) (t.clearChildren node) := by
  refine .checked fun _ => (sound_span t node).bind ?_
  obtain ⟨stop, total⟩ := t.span node
  exact .some _

theorem sound_remove (t : Outline α) (node : Nat) :
    Sound (remove t node) (t.remove node) := by
  refine .checked fun _ => ?_
  split
  case isTrue root => exact .some _
  case isFalse below =>
    refine (sound_span t node).bind ?_
    obtain ⟨stop, total⟩ := t.span node
    exact (sound_shift _ _ _).bind (.some _)

theorem sound_dissolve (t : Outline α) (node : Nat) :
    Sound (dissolve t node) (t.dissolve node) := by
  refine .checked fun _ => ?_
  split
  case isTrue root => exact .some _
  case isFalse below =>
    split
    case isTrue leaf => exact sound_remove t node
    case isFalse inner => exact (sound_span t node).bind ((sound_shift _ _ _).bind (.some _))

theorem sound_prune (t : Outline α) (target source : Nat) :
    Sound (prune t target source) (t.prune target source) := by
  refine .checked fun _ => .checked fun _ => (sound_span t target).bind ?_
  obtain ⟨targetStop, targetTotal⟩ := t.span target
  simp only
  split
  case isTrue between =>
    refine (sound_span t source).bind ?_
    obtain ⟨sourceStop, sourceTotal⟩ := t.span source
    exact (Sound.fit _).bind ((sound_shift _ _ _).bind (.some _))
  case isFalse apart => exact .some _

theorem sound_wrap (t : Outline α) (node : Nat) (value : α) :
    Sound (wrap t node value) (t.wrap node value) :=
  .checked fun _ => .checked fun _ =>
    (sound_span t node).bind ((sound_shift _ _ _).bind (.some _))

theorem sound_apply (t : Outline α) (edit : Edit α) : Sound (apply t edit) (t.apply edit) := by
  cases edit with
  | append parent value => exact (sound_append t parent value).map _
  | prepend parent value => exact (sound_prepend t parent value).map _
  | graft parent scion => exact (sound_graft t parent (ofRose scion)).map _
  | graftCopy parent source n => exact (sound_graftCopy t parent (ofRose source) n).map _
  | clearChildren n => exact (sound_clearChildren t n).map _
  | remove n => exact (sound_remove t n).map _
  | dissolve n => exact (sound_dissolve t n).map _
  | prune target source => exact (sound_prune t target source).map _
  | wrap n value => exact (sound_wrap t n value).map _

end Bounded

/-! ## Weights that fit -/

/-- What comes out, if anything does and it is not an error. -/
def Gives (kept : β → Prop) (answer : Option (Except OutlineError β)) : Prop :=
  ∀ given, answer = some (.ok given) → kept given

namespace Gives

variable {kept : β → Prop}

theorem ok {given : β} (holds : kept given) : Gives kept (some (.ok given)) := by
  rintro _ ⟨⟩
  exact holds

theorem error (e : OutlineError) : Gives kept (some (.error e)) := by
  rintro _ ⟨⟩

theorem checked {check : Except OutlineError Unit} {next : Option (Except OutlineError β)}
    (later : Gives kept next) : Gives kept (Bounded.checked check next) := by
  cases check with
  | error e => exact error e
  | ok => exact later

theorem bind {answer : Option γ} {next : γ → Option (Except OutlineError β)}
    (later : ∀ given, answer = some given → Gives kept (next given)) :
    Gives kept (answer.bind next) := by
  intro given found
  obtain ⟨middle, here, found⟩ := Option.bind_eq_some_iff.mp found
  exact later middle here given found

end Gives

theorem narrow_splice {entries inserted : List (Entry α)} {node : Nat}
    (old : Narrow ⟨entries⟩) (new : Narrow ⟨inserted⟩) : Narrow ⟨splice entries node inserted⟩ :=
  fun entry member => (mem_splice.mp member).elim (old entry) (new entry)

theorem narrow_reweigh {entries : List (Entry α)} {node : Nat} {weight : Int}
    (old : Narrow ⟨entries⟩) (new : Fits weight) : Narrow ⟨reweigh entries node weight⟩ := by
  intro entry member
  obtain ⟨k, inside, rfl⟩ := List.mem_iff_getElem.mp member
  simp only [reweigh, List.getElem_modify]
  split
  · exact new
  · exact old _ (List.getElem_mem _)

theorem narrow_cut {entries : List (Entry α)} {start stop : Nat} (old : Narrow ⟨entries⟩) :
    Narrow ⟨cut entries start stop⟩ := by
  intro entry member
  rcases List.mem_append.mp member with front | behind
  · exact old entry (List.mem_of_mem_take front)
  · exact old entry (List.mem_of_mem_drop behind)

theorem narrow_singleton {weight : Int} {value : α} (fits : Fits weight) :
    Narrow (⟨[⟨weight, value⟩]⟩ : Outline α) :=
  List.forall_mem_singleton.mpr fits

namespace Bounded

theorem fits_of_extent {entries : List (Entry α)} {sum : Int} {count : Nat} {total : Int}
    (found : extent entries sum = some (count, total)) (fits : Fits sum) : Fits total := by
  induction entries generalizing sum count with
  | nil =>
    cases found
    exact fits
  | cons entry rest ih =>
    obtain ⟨next, here, found⟩ := Option.bind_eq_some_iff.mp found
    obtain ⟨rfl, small⟩ := fits_of_fit here
    split at found
    · cases found
      exact small
    · obtain ⟨⟨more, last⟩, later, same⟩ := Option.map_eq_some_iff.mp found
      cases same
      exact ih later small

theorem fits_of_span {t : Outline α} {node stop : Nat} {total : Int}
    (found : span t node = some (stop, total)) : Fits total := by
  obtain ⟨⟨count, last⟩, summed, same⟩ := Option.map_eq_some_iff.mp found
  cases same
  exact fits_of_extent summed (by decide)

theorem narrow_of_shift {entries shifted : List (Entry α)} {node : Nat} {amount : Int}
    (found : shift entries node amount = some shifted) (old : Narrow ⟨entries⟩) :
    Narrow ⟨shifted⟩ := by
  obtain ⟨weight, here, rfl⟩ := Option.map_eq_some_iff.mp found
  obtain ⟨rfl, fits⟩ := fits_of_fit here
  exact narrow_reweigh old fits

section

variable {t : Outline α} (narrow : t.Narrow)
include narrow

theorem gives_prepend (parent : Nat) (value : α) :
    Gives (·.1.Narrow) (prepend t parent value) := by
  refine .checked (.checked (.bind fun below here => .ok ?_))
  obtain ⟨rfl, fits⟩ := fits_of_fit here
  exact narrow_splice (narrow_reweigh narrow (by decide)) (narrow_singleton fits)

theorem gives_append (parent : Nat) (value : α) : Gives (·.1.Narrow) (append t parent value) := by
  refine .checked (.checked ?_)
  split
  case isTrue leaf =>
    refine .bind fun below here => .ok ?_
    obtain ⟨rfl, fits⟩ := fits_of_fit here
    exact narrow_splice (narrow_reweigh narrow (by decide)) (narrow_singleton fits)
  case isFalse inner =>
    refine .bind fun (stop, total) summed => .bind fun below here => .bind fun shifted done => ?_
    obtain ⟨rfl, fits⟩ := fits_of_fit here
    exact .ok (narrow_splice (narrow_of_shift done narrow) (narrow_singleton fits))

theorem gives_graft (parent : Nat) {scion : Outline α} (narrow' : scion.Narrow) :
    Gives (·.1.Narrow) (graft t parent scion) := by
  refine .checked (.checked ?_)
  split
  case isTrue leaf =>
    refine .bind fun shifted done => .ok ?_
    exact narrow_splice (narrow_reweigh narrow (by decide)) (narrow_of_shift done narrow')
  case isFalse inner =>
    refine .bind fun (stop, total) summed => .bind fun below here => .bind fun shifted done => ?_
    refine .bind fun shifted' done' => .ok ?_
    exact narrow_splice (narrow_of_shift done narrow) (narrow_of_shift done' narrow')

theorem narrow_of_subtree {node : Nat} {copied : Outline α}
    (found : subtree t node = some copied) : copied.Narrow := by
  obtain ⟨⟨stop, total⟩, -, found⟩ := Option.bind_eq_some_iff.mp found
  obtain ⟨up, -, found⟩ := Option.bind_eq_some_iff.mp found
  obtain ⟨shifted, done, same⟩ := Option.bind_eq_some_iff.mp found
  cases same
  refine narrow_of_shift done fun entry member => ?_
  exact narrow entry (List.mem_of_mem_drop (List.mem_of_mem_take member))

theorem gives_graftCopy (parent node : Nat) {source : Outline α} (narrow' : source.Narrow) :
    Gives (·.1.Narrow) (graftCopy t parent source node) :=
  .checked (.bind fun _ copied => gives_graft narrow parent (narrow_of_subtree narrow' copied))

theorem gives_clearChildren (node : Nat) : Gives (·.Narrow) (clearChildren t node) :=
  .checked (.bind fun _ summed => .ok (narrow_reweigh (narrow_cut narrow) (fits_of_span summed)))

theorem gives_remove (node : Nat) : Gives (·.1.Narrow) (remove t node) := by
  refine .checked ?_
  split
  case isTrue root => exact .error _
  case isFalse below =>
    exact .bind fun _ _ => .bind fun _ done => .ok (narrow_of_shift done (narrow_cut narrow))

theorem gives_dissolve (node : Nat) : Gives (·.1.Narrow) (dissolve t node) := by
  refine .checked ?_
  split
  case isTrue root => exact .error _
  case isFalse below =>
    split
    case isTrue leaf => exact gives_remove narrow node
    case isFalse inner =>
      exact .bind fun _ _ => .bind fun _ done => .ok (narrow_cut (narrow_of_shift done narrow))

theorem gives_prune (target source : Nat) : Gives (·.1.Narrow) (prune t target source) := by
  refine .checked (.checked (.bind fun (targetStop, targetTotal) _ => ?_))
  simp only
  split
  case isTrue between =>
    refine .bind fun _ _ => .bind fun _ _ => .bind fun _ done => .ok ?_
    exact narrow_of_shift done (narrow_cut (narrow_cut narrow))
  case isFalse apart => exact .error _

theorem gives_wrap (node : Nat) (value : α) : Gives (·.1.Narrow) (wrap t node value) := by
  refine .checked (.checked (.bind fun _ _ => .bind fun _ done => .ok ?_))
  exact narrow_splice (narrow_of_shift done narrow) (narrow_singleton (by decide))

end

end Bounded

/-- What an edit puts in or copies from has weights that fit. -/
def TakesNarrow : Edit α → Prop
  | .graft _ scion => (ofRose scion).Narrow
  | .graftCopy _ source _ => (ofRose source).Narrow
  | _ => True

namespace Gives

theorem map {kept : γ → Prop} {answer : Option (Except OutlineError β)} {f : β → γ}
    (before : Gives (fun given => kept (f given)) answer) :
    Gives kept (answer.map (·.map f)) := by
  rintro given found
  obtain ⟨result, here, same⟩ := Option.map_eq_some_iff.mp found
  cases result with
  | error e => cases same
  | ok middle =>
    cases same
    exact before middle here

end Gives

namespace Bounded

theorem gives_apply {t : Outline α} {edit : Edit α} (narrow : t.Narrow)
    (takes : TakesNarrow edit) : Gives (·.1.Narrow) (apply t edit) := by
  cases edit with
  | append parent value => exact .map (gives_append narrow parent value)
  | prepend parent value => exact .map (gives_prepend narrow parent value)
  | graft parent scion => exact .map (gives_graft narrow parent takes)
  | graftCopy parent source n => exact .map (gives_graftCopy narrow parent n takes)
  | clearChildren n => exact .map (gives_clearChildren narrow n)
  | remove n => exact .map (gives_remove narrow n)
  | dissolve n => exact .map (gives_dissolve narrow n)
  | prune target source => exact .map (gives_prune narrow target source)
  | wrap n value => exact .map (gives_wrap narrow n value)

/-- On a shallow outline an edit is answered exactly if its result has weights that fit. -/
theorem apply_isSome_iff {t : Outline α} {edit : Edit α} (grown : t.Grown) (shallow : t.Shallow)
    (copies : CopiesShallow edit) (takes : TakesNarrow edit) :
    (apply t edit).isSome ↔ ∀ changed n, t.apply edit = .ok (changed, n) → changed.Narrow := by
  constructor
  · intro answered changed n done
    obtain ⟨answer, found⟩ := Option.isSome_iff_exists.mp answered
    have right := sound_apply t edit answer found
    have narrow := (shallow.answered grown).narrow
    exact gives_apply narrow takes (changed, n) (by rw [found, right, done])
  · intro after
    rw [apply_eq grown shallow copies after]
    rfl

/-! ## Series of edits -/

def session (t : Outline α) :
    List (Edit α) → Option (Outline α × List (Except OutlineError (Option Nat)))
  | [] => some (t, [])
  | edit :: edits =>
    (apply t edit).bind fun
      | .ok (changed, result) =>
        (session changed edits).map fun (final, answers) => (final, .ok result :: answers)
      | .error e => (session t edits).map fun (final, answers) => (final, .error e :: answers)

theorem session_cons {t changed : Outline α} {edit : Edit α} {result : Option Nat}
    (done : apply t edit = some (.ok (changed, result))) (edits : List (Edit α)) :
    session t (edit :: edits) = (session changed edits).map fun (final, answers) =>
      (final, .ok result :: answers) := by
  rw [session, done]
  rfl

theorem sound_session (t : Outline α) (edits : List (Edit α)) :
    Sound (session t edits) (t.session edits) := by
  induction edits generalizing t with
  | nil => exact .some _
  | cons edit edits ih =>
    rw [Outline.session]
    refine (sound_apply t edit).bind ?_
    cases t.apply edit with
    | error e => exact (ih t).map _
    | ok answer => exact (ih answer.1).map _

theorem session_eq {t : Outline α} {edits : List (Edit α)} (grown : t.Grown)
    (copies : ∀ edit ∈ edits, CopiesShallow edit)
    (shallow : ∀ k, (t.session (edits.take k)).1.Shallow) :
    session t edits = some (t.session edits) := by
  induction edits generalizing t with
  | nil => rfl
  | cons edit edits ih =>
    obtain ⟨first, later⟩ := List.forall_mem_cons.mp copies
    have next := shallow 1
    have rest (k : Nat) := shallow (k + 1)
    simp only [List.take_succ_cons, List.take_zero, Outline.session] at next rest
    have applied : apply t edit = some (t.apply edit) := by
      refine apply_eq grown (shallow 0) first fun changed n done => ?_
      rw [done] at next
      exact (Shallow.answered (grown_apply grown done) next).narrow
    rw [session, applied, Outline.session]
    cases done : t.apply edit with
    | error e =>
      simp only [done] at rest
      simp only [Option.bind_some, ih grown later rest, Option.map_some]
    | ok answer =>
      obtain ⟨changed, n⟩ := answer
      simp only [done] at rest
      simp only [Option.bind_some, ih (grown_apply grown done) later rest, Option.map_some]

end Bounded

/-! ## Edits that grow a fork -/

open Rose

/-- A root gets two children, and the first of them becomes a stem from its end on. -/
def forking (value : α) (n : Nat) : List (Edit α) :=
  .append 0 value :: .append 0 value :: (List.range' 1 n).map fun k => .append k value

theorem apply_fork {value : α} {n : Nat} (few : n < 2147483648) :
    Bounded.apply (ofRose (fork value n)) (.append (n + 1) value) =
      some (.ok (ofRose (fork value (n + 1)), some (n + 2))) := by
  have room : n + 1 + 1 + 1 < capacity := by
    show n + 3 < 4294967295
    omega
  have fits : Fits (1 - (n + 1 : Nat) - 1) := by
    unfold Fits
    omega
  rw [Bounded.apply, ofRose_fork, append_spine_bounded room (by omega), if_pos fits, ofRose_fork]
  rfl

theorem session_fork (value : α) (n m : Nat) (few : n + m ≤ 2147483648) :
    Bounded.session (ofRose (fork value n)) ((List.range' (n + 1) m).map fun k => .append k value) =
      some (ofRose (fork value (n + m)), (List.range' (n + 2) m).map fun k => .ok (some k)) := by
  induction m generalizing n with
  | zero => rfl
  | succ m ih =>
    have sum : n + 1 + m = n + (m + 1) := by omega
    rw [List.range'_succ, List.map_cons, Bounded.session_cons (apply_fork (by omega)),
      ih (n + 1) (by omega), List.range'_succ, sum]
    rfl

theorem session_forking (value : α) {n : Nat} (few : n ≤ 2147483648) :
    Bounded.session (ofRose (leaf value)) (forking value n) = some (ofRose (fork value n),
      .ok (some 1) :: .ok (some 2) :: (List.range' 2 n).map fun k => .ok (some k)) := by
  have first : Bounded.apply (ofRose (leaf value)) (.append 0 value) =
      some (.ok (ofRose (node value [leaf value]), some 1)) := rfl
  have second : Bounded.apply (ofRose (node value [leaf value])) (.append 0 value) =
      some (.ok (ofRose (fork value 0), some 2)) := rfl
  have rest := session_fork value 0 n (by omega)
  rw [Nat.zero_add, Nat.zero_add, Nat.zero_add] at rest
  rw [forking, Bounded.session_cons first, Bounded.session_cons second, rest]
  rfl

/-! ## Edits that overflow -/

/-- The weight of the new leaf does not fit, though there is room for it. -/
theorem overflow_stem (value : α) {n : Nat} (many : 2147483647 ≤ n) (room : n + 1 < capacity) :
    (stem value n).apply (.append n value) = .ok (stem value (n + 1), some (n + 1)) ∧
      Bounded.apply (ofRose (stem value n)) (.append n value) = none := by
  have wide : ¬ Fits (-1 - n - 1) := fun fits => by
    unfold Fits at fits
    omega
  constructor
  · have longer : (ofRose (stem value n)).apply (.append n value) =
        .ok (ofRose (stem value (n + 1)), some (n + 1)) := by
      rw [Outline.apply, ofRose_stem, ofRose_stem, chain_eq_spine, chain_eq_spine,
        append_spine room (by omega)]
      rfl
    rw [apply_ofRose] at longer
    cases done : (stem value n).apply (.append n value) with
    | error e =>
      rw [done] at longer
      cases longer
    | ok answer =>
      rw [done] at longer
      obtain ⟨same, place⟩ := Prod.mk.inj (Except.ok.inj longer)
      exact congrArg Except.ok (Prod.ext (ofRose_injective same) place)
  · rw [Bounded.apply, ofRose_stem, chain_eq_spine, append_spine_bounded room (by omega),
      if_neg wide]
    rfl

/-- All weights fit before and after, but the sum along the stem does not. -/
theorem overflow_fork (value : α) {n : Nat} (many : 2147483647 ≤ n) (few : n ≤ 2147483648) :
    (fork value n).apply (.append 0 value) =
        .ok (node value [stem value n, leaf value, leaf value], some (n + 3)) ∧
      (ofRose (node value [stem value n, leaf value, leaf value])).Narrow ∧
      Bounded.apply (ofRose (fork value n)) (.append 0 value) = none := by
  have size : (fork value n).size = n + 3 := by rw [← size_ofRose, size_fork]
  have room : ¬ n + 3 + 1 > capacity := by
    show ¬ n + 3 + 1 > 4294967295
    omega
  refine ⟨?_, ?_, ?_⟩
  · have found : (fork value n).find 0 = .ok ([], fork value n) := rfl
    have place : (node value [stem value n, leaf value, leaf value]).place [2] = n + 3 := by
      have first := size_stem value n
      have second : (leaf value).size = 1 := rfl
      simp only [Rose.place, Rose.children, List.take_succ_cons, List.take_zero, forestSize, first,
        second]
      simp
      omega
    have child : (leaf value).size = 1 := rfl
    rw [Rose.apply, Rose.graft, found, ← place]
    simp only [bind, Except.bind, Rose.checkRoom, size, child, if_neg room]
    rfl
  · have third : Fits 0 := by decide
    have fourth : Fits (-2) := by decide
    rw [ofRose_node_stem]
    refine narrow_spine ?_ (List.forall_mem_cons.mpr ⟨third, List.forall_mem_singleton.mpr fourth⟩)
    unfold Fits
    omega
  · have node : (ofRose (fork value n)).checkNode 0 = .ok () := by
      rw [checkNode, size_fork]
      exact if_pos (by omega)
    have more : (ofRose (fork value n)).checkRoom 1 = .ok () := by
      rw [checkRoom, size_fork]
      exact if_neg room
    have inner : (ofRose (fork value n)).isLeaf 0 = false := rfl
    have lost : Bounded.span (ofRose (fork value n)) 0 = none := by
      rw [ofRose_fork]
      exact span_spine (by omega)
    rw [Bounded.apply, Bounded.append, node, more, inner, lost]
    rfl

/-- What edits with weights of 32 bits make of the outline of a tree. -/
structure Refines (tree : Rose α) : Prop where
  /-- The tree finds every position up to its size and refuses all others. -/
  found : ∀ n, (∃ path sub, tree.find n = .ok (path, sub) ∧ tree.at? path = some sub ∧
    tree.place path = n) ∨ tree.find n = .error (.outOfRange n tree.size) ∧ tree.size ≤ n
  /-- An answer is that of the tree: the same refusal, or the same position and the outline of the
  edited tree. -/
  edits : ∀ edit, Sound (Bounded.apply (ofRose tree) edit)
    ((tree.apply edit).map fun (changed, result) => (ofRose changed, result))
  answered : (ofRose tree).Shallow → ∀ edit, CopiesShallow edit → TakesNarrow edit →
    ((Bounded.apply (ofRose tree) edit).isSome ↔
      ∀ changed result, tree.apply edit = .ok (changed, result) → (ofRose changed).Narrow)
  series : ∀ edits,
    Sound (Bounded.session (ofRose tree) edits)
      (ofRose (tree.session edits).1, (tree.session edits).2) ∧
    Sound (Bounded.isWellFormed (ofRose (tree.session edits).1)) true
  seriesAnswered : ∀ edits, (∀ edit ∈ edits, CopiesShallow edit) →
    (∀ k, (ofRose (tree.session (edits.take k)).1).Shallow) →
      Bounded.session (ofRose tree) edits =
        some (ofRose (tree.session edits).1, (tree.session edits).2) ∧
      Bounded.isWellFormed (ofRose (tree.session edits).1) = some true
  copied : ∀ path sub, tree.at? path = some sub →
    Sound (Bounded.subtree (ofRose tree) (tree.place path)) (ofRose sub) ∧
    ((ofRose tree).Shallow → Bounded.subtree (ofRose tree) (tree.place path) = some (ofRose sub))
  /-- Where a node is removed, its position goes to what followed its subtree. -/
  removed : ∀ path i child, tree.at? (path ++ [i]) = some child →
    (ofRose (tree.modifyAt (replaceChild i []) path)).entries.drop (tree.place (path ++ [i])) =
      (ofRose tree).entries.drop (tree.place (path ++ [i]) + child.size)
  /-- Where its children take its place, its position goes to the first of them. -/
  dissolved : ∀ path i child first others, tree.at? (path ++ [i]) = some child →
    child.children = first :: others →
      (tree.modifyAt (replaceChild i child.children) path).at? (path ++ [i]) = some first ∧
      (tree.modifyAt (replaceChild i child.children) path).place (path ++ [i]) =
        tree.place (path ++ [i])

theorem apply_isSome_iff_narrow {tree : Rose α} (shallow : (ofRose tree).Shallow) {edit : Edit α}
    (copies : CopiesShallow edit) (takes : TakesNarrow edit) :
    (Bounded.apply (ofRose tree) edit).isSome ↔
      ∀ changed result, tree.apply edit = .ok (changed, result) → (ofRose changed).Narrow := by
  rw [Bounded.apply_isSome_iff ⟨tree, rfl⟩ shallow copies takes, apply_ofRose]
  constructor
  · intro after changed result done
    exact after _ result (by rw [done]; rfl)
  · intro after changed result done
    cases edited : tree.apply edit with
    | error e =>
      rw [edited] at done
      cases done
    | ok answer =>
      rw [edited] at done
      cases done
      exact after answer.1 answer.2 edited

theorem subtree_place_bounded {tree sub : Rose α} {path : List Nat}
    (shallow : (ofRose tree).Shallow) (found : tree.at? path = some sub) :
    Bounded.subtree (ofRose tree) (tree.place path) = some (ofRose sub) := by
  have grown : (ofRose tree).Grown := ⟨tree, rfl⟩
  have inside : tree.place path < (ofRose tree).size := by
    rw [size_ofRose]
    exact place_lt_size found
  have below := shallow_subtree grown shallow inside
  have narrow := (below.answered (grown_subtree grown inside)).narrow
  rw [Bounded.subtree_eq grown shallow inside narrow, subtree_place found]

theorem refines (tree : Rose α) : Refines tree where
  found := find_cases tree
  edits edit := apply_ofRose tree edit ▸ Bounded.sound_apply (ofRose tree) edit
  answered shallow _ copies takes := apply_isSome_iff_narrow shallow copies takes
  series edits :=
    ⟨session_ofRose tree edits ▸ Bounded.sound_session (ofRose tree) edits,
      isWellFormed_ofRose (tree.session edits).1 ▸ Bounded.sound_isWellFormed (ofRose _)⟩
  seriesAnswered edits copies shallow := by
    have last := shallow edits.length
    rw [List.take_length] at last
    refine ⟨?_, Grown.isWellFormed_iff ⟨_, rfl⟩ |>.mpr last⟩
    rw [← session_ofRose]
    exact Bounded.session_eq ⟨tree, rfl⟩ copies fun k => (session_ofRose tree _).symm ▸ shallow k
  copied _ _ found := ⟨subtree_place found ▸ Bounded.sound_subtree (ofRose tree) _,
    fun shallow => subtree_place_bounded shallow found⟩
  removed path i child found := by
    obtain ⟨parent, parentFound, selected⟩ := at?_of_snoc found
    exact drop_entries_remove parentFound selected
  dissolved _ _ _ _ _ found kept := first_of_dissolved found kept

/-- Edits of outlines with weights of 32 bits are edits of trees: an answer that is given, to one
edit or to a series, is the one that the tree gives, and shallow trees give an answer exactly if the
weights of the result fit. But the capacity does not keep trees shallow. One more leaf at the end of
a long stem has a weight that does not fit; and one more leaf under the root of a long fork, which
is reached by edits that are all answered, takes a sum that does not fit, though all weights do
before and after. -/
theorem edits_refine_trees (tree : Rose α) (value : α) :
    Refines tree ∧
    (∀ n, 2147483647 ≤ n → n + 1 < capacity →
      (stem value n).apply (.append n value) = .ok (stem value (n + 1), some (n + 1)) ∧
      Bounded.apply (ofRose (stem value n)) (.append n value) = none) ∧
    ∀ n, 2147483647 ≤ n → n ≤ 2147483648 →
      let wider := node value [stem value n, leaf value, leaf value]
      (∃ answers, Bounded.session (ofRose (leaf value)) (forking value n) =
        some (ofRose (fork value n), answers)) ∧
      (fork value n).apply (.append 0 value) = .ok (wider, some (n + 3)) ∧
      (ofRose wider).Narrow ∧ Bounded.apply (ofRose (fork value n)) (.append 0 value) = none :=
  ⟨refines tree, fun _ many room => overflow_stem value many room,
    fun _ many few => ⟨⟨_, session_forking value few⟩, overflow_fork value many few⟩⟩

theorem edits_refine_trees_dissolved :
    let tree : Rose Char := node 'a' [leaf 'b', node 'c' [leaf 'd']]
    let edits : List (Edit Char) := [.dissolve 2, .remove 0, .wrap 1 'e']
    tree.at? ([] ++ [1]) = some (node 'c' [leaf 'd']) ∧
      Bounded.session (ofRose tree) edits = some
        (ofRose (node 'a' [node 'e' [leaf 'b'], leaf 'd']),
          [.ok (some 2), .error (.rootRefused "remove"), .ok (some 1)]) ∧
      Bounded.subtree (ofRose tree) 2 = some (ofRose (node 'c' [leaf 'd'])) ∧
      (tree.modifyAt (replaceChild 1 [leaf 'd']) []).at? [1] = some (leaf 'd') ∧
      Bounded.apply (ofRose (fork 'a' 2147483648)) (.append 0 'a') = none := by
  intro tree edits
  obtain ⟨refines, -, deep⟩ := edits_refine_trees tree 'a'
  have shallow : (ofRose tree).Shallow := by decide
  have copies : ∀ edit ∈ edits, CopiesShallow edit := by simp [edits, CopiesShallow]
  have stays (k : Nat) : (ofRose (tree.session (edits.take k)).1).Shallow := by
    have early : ∀ k ≤ 3, (ofRose (tree.session (edits.take k)).1).Shallow := by decide
    rcases Nat.le_total k 3 with inside | past
    · exact early k inside
    · have whole := early 3 (Nat.le_refl 3)
      rwa [List.take_of_length_le past]
  exact ⟨rfl, (refines.seriesAnswered edits copies stays).1, (refines.copied [1] _ rfl).2 shallow,
    (refines.dissolved [] 1 _ _ [] rfl rfl).1, (deep 2147483648 (by decide) (Nat.le_refl _)).2.2.2⟩

end StepScript.Outline
