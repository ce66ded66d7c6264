import StepScript.Outline.Bounded
import StepScript.Proofs.Outline.Pool

/-! Where 32 bits are enough.

What the functions with 32 bits answer is what those without bounds answer. A run of
weights adds up to a difference of levels, so the sums fit as long as no node lies
`2 ^ 31` levels below the root. The size of an outline does not matter for that, only
its depth; but an outline of at most `2 ^ 31` nodes is never too deep.
-/

set_option autoImplicit false

namespace StepScript.Outline

variable {α β : Type}

def Narrow (t : Outline α) : Prop :=
  ∀ entry ∈ t.entries, Fits entry.weight

/-- No node lies `2 ^ 31` levels below the root. -/
def Shallow (t : Outline α) : Prop :=
  ∀ node < t.size, t.depth node < 2147483648

instance (t : Outline α) : Decidable t.Shallow :=
  inferInstanceAs (Decidable (∀ node < t.size, t.depth node < 2147483648))

def Sound (answer : Option β) (right : β) : Prop :=
  ∀ given, answer = some given → given = right

/-- All sums fit that are met on the way through the entries. -/
def Running : List (Entry α) → Int → Prop
  | [], _ => True
  | entry :: rest, sum => Fits (sum + entry.weight) ∧ Running rest (sum + entry.weight)

namespace Bounded

theorem fit_of_fits {x : Int} (fits : Fits x) : fit x = some x :=
  if_pos fits

theorem fits_of_fit {x y : Int} (found : fit x = some y) : y = x ∧ Fits x := by
  obtain ⟨fits, same⟩ := Option.ite_none_right_eq_some.mp found
  exact ⟨(Option.some.inj same).symm, fits⟩

end Bounded

/-! ## Answers that are right -/

namespace Sound

theorem some (right : β) : Sound (some right) right :=
  fun _ same => (Option.some.inj same).symm

theorem fit (x : Int) : Sound (Bounded.fit x) x :=
  fun _ found => (Bounded.fits_of_fit found).1

theorem bind {γ : Type} {answer : Option β} {right : β} {next : β → Option γ} {result : γ}
    (first : Sound answer right) (later : Sound (next right) result) :
    Sound (answer.bind next) result := by
  intro given found
  obtain ⟨middle, here, found⟩ := Option.bind_eq_some_iff.mp found
  cases first middle here
  exact later given found

theorem map {γ : Type} {answer : Option β} {right : β} (first : Sound answer right)
    (f : β → γ) : Sound (answer.map f) (f right) := by
  intro given found
  obtain ⟨middle, here, rfl⟩ := Option.map_eq_some_iff.mp found
  rw [first middle here]

end Sound

/-! ## Running sums -/

namespace Bounded

variable {entries : List (Entry α)} {sum : Int}

theorem extent_eq (running : Running entries sum) :
    extent entries sum = some (Outline.extent entries sum) := by
  induction entries generalizing sum with
  | nil => rfl
  | cons entry rest ih =>
    rw [extent, Outline.extent, fit_of_fits running.1, Option.bind_some]
    split
    · rfl
    · rw [ih running.2]
      rfl

theorem parentAmong_eq (running : Running entries sum) :
    parentAmong entries sum = some (Outline.parentAmong entries sum) := by
  induction entries generalizing sum with
  | nil => rfl
  | cons entry before ih =>
    rw [parentAmong, Outline.parentAmong, fit_of_fits running.1, Option.bind_some]
    split
    · rfl
    · exact ih running.2

theorem siblingAmong_eq (running : Running entries sum) :
    siblingAmong entries sum = some (Outline.siblingAmong entries sum) := by
  induction entries generalizing sum with
  | nil => rfl
  | cons entry before ih =>
    rw [siblingAmong, Outline.siblingAmong, fit_of_fits running.1, Option.bind_some]
    split
    · rfl
    · split
      · rfl
      · exact ih running.2

theorem totalWeight_eq (running : Running entries sum) :
    totalWeight entries sum = some (sum + Outline.totalWeight entries) := by
  induction entries generalizing sum with
  | nil => simp [totalWeight, Outline.totalWeight]
  | cons entry rest ih =>
    rw [totalWeight, fit_of_fits running.1, Option.bind_some, ih running.2, Outline.totalWeight,
      Outline.totalWeight, List.foldr_cons, Int.add_assoc]

theorem totalWeight_eq_some {total : Int} (found : totalWeight entries sum = some total)
    (fits : Fits sum) : total = sum + Outline.totalWeight entries ∧ Fits total := by
  induction entries generalizing sum with
  | nil =>
    cases found
    exact ⟨by simp [Outline.totalWeight], fits⟩
  | cons entry rest ih =>
    rw [totalWeight, fit] at found
    split at found
    case isTrue fits =>
      have later := ih found fits
      rwa [Int.add_assoc] at later
    case isFalse => cases found

theorem depth_eq_some {t : Outline α} {node n : Nat} (found : depth t node = some n) :
    n = t.depth node ∧ n < 2147483648 := by
  obtain ⟨total, summed, rfl⟩ := Option.map_eq_some_iff.mp found
  obtain ⟨same, fits⟩ := totalWeight_eq_some summed (by decide)
  rw [Int.zero_add] at same
  unfold Fits at fits
  exact ⟨by rw [same, Outline.depth], by omega⟩

theorem finishes_eq_some_iff (whole : Outline.finishes entries sum = true) {answer : Bool} :
    finishes entries sum = some answer ↔ Running entries sum ∧ answer = true := by
  induction entries generalizing sum with
  | nil =>
    rw [Outline.finishes] at whole
    simp [finishes, Running, whole, eq_comm]
  | cons entry rest ih =>
    rw [Outline.finishes, Bool.and_eq_true] at whole
    rw [finishes, if_pos whole.1, Running]
    by_cases fits : Fits (sum + entry.weight)
    · rw [fit_of_fits fits, Option.bind_some, ih whole.2]
      simp [fits]
    · simp [fit, fits]

theorem isWellFormed_eq_some_iff {t : Outline α} (sound : t.isWellFormed = true) {answer : Bool} :
    isWellFormed t = some answer ↔ Running t.entries 0 ∧ answer = true := by
  obtain ⟨entries⟩ := t
  cases entries with
  | nil => cases sound
  | cons root rest =>
    rw [Outline.isWellFormed, Bool.and_eq_true, decide_eq_true_eq] at sound
    rw [isWellFormed, Running, Int.zero_add]
    simp only [if_pos sound.1]
    by_cases fits : Fits root.weight
    · rw [fit_of_fits fits, Option.bind_some, finishes_eq_some_iff sound.2]
      simp [fits]
    · simp [fit, fits]

end Bounded

/-! ## Listings -/

open Rose

section Listing

variable {items : List (Int × α)} {stop base : Int}

theorem running_weigh (fits : ∀ item ∈ items, Fits (item.1 - base)) (last : Fits (stop - base)) :
    Running (weigh stop items) (firstLevel stop items - base) := by
  induction items with
  | nil => trivial
  | cons item rest ih =>
    have sum : item.1 - base + (firstLevel stop rest - item.1) = firstLevel stop rest - base := by
      omega
    rw [weigh, Running, firstLevel_cons, sum]
    refine ⟨?_, ih fun item member => fits item (List.mem_cons_of_mem _ member)⟩
    cases rest with
    | nil => exact last
    | cons next rest => exact fits next (by simp)

/-- The sums on the way are the levels that come after the first. -/
theorem fits_of_running (running : Running (weigh stop items) (firstLevel stop items - base)) :
    ∀ item ∈ items.tail, Fits (item.1 - base) := by
  induction items with
  | nil => exact List.forall_mem_nil _
  | cons item rest ih =>
    have sum : item.1 - base + (firstLevel stop rest - item.1) = firstLevel stop rest - base := by
      omega
    rw [weigh, Running, firstLevel_cons, sum] at running
    cases rest with
    | nil => exact List.forall_mem_nil _
    | cons next rest => exact List.forall_mem_cons.mpr ⟨running.1, ih running.2⟩

theorem running_reverse (fits : ∀ item ∈ items, Fits (base - item.1)) :
    Running (weigh stop items).reverse (base - stop) := by
  induction items using List.reverseRecOn generalizing stop with
  | nil => trivial
  | append_singleton items last ih =>
    have sum : base - stop + (stop - last.1) = base - last.1 := by omega
    rw [reverse_weigh_snoc, Running, sum]
    exact ⟨fits last (by simp), ih fun item member => fits item (by simp [member])⟩

theorem fits_of_mem_weigh (bounds : ∀ item ∈ items, 0 ≤ item.1 ∧ item.1 < 2147483648)
    (last : -1 ≤ stop ∧ stop < 2147483648) : ∀ entry ∈ weigh stop items, Fits entry.weight := by
  induction items with
  | nil => exact List.forall_mem_nil _
  | cons item rest ih =>
    obtain ⟨here, later⟩ := List.forall_mem_cons.mp bounds
    refine List.forall_mem_cons.mpr ⟨?_, ih later⟩
    have next : -1 ≤ firstLevel stop rest ∧ firstLevel stop rest < 2147483648 := by
      cases rest with
      | nil => exact last
      | cons next rest =>
        have := later next List.mem_cons_self
        simp only [firstLevel_cons]
        omega
    show Fits (firstLevel stop rest - item.1)
    unfold Fits
    omega

theorem drop_weigh (n : Nat) : (weigh stop items).drop n = weigh stop (items.drop n) := by
  induction items generalizing n with
  | nil => simp [weigh]
  | cons item rest ih =>
    cases n with
    | zero => rfl
    | succ n => exact ih n

theorem take_weigh (n : Nat) :
    (weigh stop items).take n = weigh (firstLevel stop (items.drop n)) (items.take n) := by
  have short (stop : Int) : (weigh stop (items.take n)).length ≤ n := by
    rw [length_weigh, List.length_take]
    exact Nat.min_le_left ..
  conv => lhs; rw [← List.take_append_drop n items, weigh_append]
  rcases Nat.le_total n items.length with inside | past
  · rw [List.take_append_of_le_length (by simp [inside]), List.take_of_length_le (short _)]
  · rw [List.drop_eq_nil_of_le past, weigh, List.append_nil, List.take_of_length_le (short _)]

end Listing

section Tree

variable {tree : Rose α}

theorem firstLevel_take (tree : Rose α) (n : Nat) :
    firstLevel (tree.levelAt n) ((tree.levels 0).take n) = 0 := by
  have whole : firstLevel (-1) (tree.levels 0) = 0 := firstLevel_levels _ _ _
  rwa [← List.take_append_drop n (tree.levels 0), firstLevel_append] at whole

theorem depth_eq_levelAt (tree : Rose α) (n : Nat) :
    ((ofRose tree).depth n : Int) = max 0 (tree.levelAt n) := by
  rw [depth, entries_ofRose, take_weigh, ← levelAt, totalWeight_weigh, firstLevel_take,
    Int.sub_zero]
  omega

/-- Levels are what tells whether an outline is shallow. -/
theorem shallow_ofRose :
    (ofRose tree).Shallow ↔ ∀ item ∈ tree.levels 0, item.1 < 2147483648 := by
  have level {n : Nat} (inside : n < (tree.levels 0).length) :
      tree.levelAt n = (tree.levels 0)[n].1 := by
    rw [levelAt, List.drop_eq_getElem_cons inside, firstLevel_cons]
  constructor
  · intro shallow item member
    obtain ⟨n, inside, rfl⟩ := List.mem_iff_getElem.mp member
    have depth := shallow n (by rwa [size_ofRose, ← length_levels tree 0])
    have same := depth_eq_levelAt tree n
    rw [level inside] at same
    omega
  · intro bounds n inside
    rw [size_ofRose, ← length_levels tree 0] at inside
    have bound := bounds _ (List.getElem_mem inside)
    have same := depth_eq_levelAt tree n
    rw [level inside] at same
    omega

variable (shallow : (ofRose tree).Shallow)
include shallow

theorem level_bounds : ∀ item ∈ tree.levels 0, 0 ≤ item.1 ∧ item.1 < 2147483648 :=
  fun item member => ⟨le_of_mem_levels tree 0 item member, shallow_ofRose.mp shallow item member⟩

theorem levelAt_bounds (n : Nat) : -1 ≤ tree.levelAt n ∧ tree.levelAt n < 2147483648 := by
  rw [levelAt]
  cases behind : (tree.levels 0).drop n with
  | nil => exact ⟨Int.le_refl _, by simp⟩
  | cons item rest =>
    have member : item ∈ tree.levels 0 := List.mem_of_mem_drop (behind ▸ List.mem_cons_self)
    have := level_bounds shallow item member
    simp only [firstLevel_cons]
    omega

theorem Shallow.narrow : (ofRose tree).Narrow := by
  rw [Narrow, entries_ofRose]
  exact fits_of_mem_weigh (level_bounds shallow) (by decide)

theorem Shallow.running_drop (n : Nat) : Running ((ofRose tree).entries.drop n) 0 := by
  rw [entries_ofRose, drop_weigh]
  cases behind : (tree.levels 0).drop n with
  | nil => trivial
  | cons first rest =>
    have bounds (item : Int × α) (member : item ∈ first :: rest) :=
      level_bounds shallow item (List.mem_of_mem_drop (behind ▸ member))
    have start := bounds first List.mem_cons_self
    have sum : (0 : Int) = firstLevel (-1) (first :: rest) - first.1 := by simp
    rw [sum]
    refine running_weigh (fun item member => ?_) ?_
    · have := bounds item member
      unfold Fits
      omega
    · unfold Fits
      omega

theorem Shallow.running_take (n : Nat) : Running ((ofRose tree).entries.take n) 0 := by
  rw [entries_ofRose, take_weigh, ← levelAt]
  have running : Running (weigh (tree.levelAt n) ((tree.levels 0).take n))
      (firstLevel (tree.levelAt n) ((tree.levels 0).take n) - 0) := by
    refine running_weigh (fun item member => ?_) ?_
    · have := level_bounds shallow item (List.mem_of_mem_take member)
      unfold Fits
      omega
    · have := levelAt_bounds shallow n
      unfold Fits
      omega
  rwa [firstLevel_take] at running

theorem Shallow.running_back (n : Nat) : Running ((ofRose tree).entries.take n).reverse 0 := by
  have running : Running (weigh (tree.levelAt n) ((tree.levels 0).take n)).reverse
      (tree.levelAt n - tree.levelAt n) := by
    refine running_reverse fun item member => ?_
    have := level_bounds shallow item (List.mem_of_mem_take member)
    have := levelAt_bounds shallow n
    unfold Fits
    omega
  rwa [Int.sub_self, levelAt, ← take_weigh, ← entries_ofRose] at running

end Tree

/-! ## Deep outlines and shallow ones -/

/-- The weights fit, and each question about the outline is answered with sums that fit. -/
structure Answered (t : Outline α) : Prop where
  narrow : t.Narrow
  span (node : Nat) : Bounded.span t node = some (t.span node)
  depth (node : Nat) : Bounded.depth t node = some (t.depth node)
  parent (node : Nat) : Bounded.parent t node = some (t.parent node)
  prevSibling (node : Nat) : Bounded.prevSibling t node = some (t.prevSibling node)

theorem Shallow.answered {t : Outline α} (grown : t.Grown) (shallow : t.Shallow) : t.Answered := by
  obtain ⟨tree, rfl⟩ := grown
  refine ⟨shallow.narrow, fun node => ?_, fun node => ?_,
    fun node => Bounded.parentAmong_eq (shallow.running_back node),
    fun node => Bounded.siblingAmong_eq (shallow.running_back node)⟩
  · rw [Bounded.span, Bounded.extent_eq (shallow.running_drop node)]
    rfl
  · rw [Bounded.depth, Bounded.totalWeight_eq (shallow.running_take node), Int.zero_add]
    rfl

/-- The depth of a node that is too deep is not found. -/
theorem Grown.answered_iff {t : Outline α} (grown : t.Grown) : t.Answered ↔ t.Shallow := by
  refine ⟨fun answered node _ => ?_, Shallow.answered grown⟩
  exact (Bounded.depth_eq_some (answered.depth node)).2

/-- The check of the shape of an outline comes to its end exactly when this is shallow. -/
theorem Grown.isWellFormed_iff {t : Outline α} (grown : t.Grown) :
    Bounded.isWellFormed t = some true ↔ t.Shallow := by
  have sound := grown.sound.1
  obtain ⟨tree, rfl⟩ := grown
  rw [Bounded.isWellFormed_eq_some_iff sound, and_iff_left rfl]
  constructor
  · intro running
    have whole : Running (weigh (-1) (tree.levels 0)) (firstLevel (-1) (tree.levels 0) - 0) := by
      rwa [firstLevel_levels, Int.sub_self, ← entries_ofRose]
    have fits := fits_of_running whole
    rw [shallow_ofRose]
    rw [levels_eq] at fits ⊢
    have root : (0 : Int) < 2147483648 := by decide
    refine List.forall_mem_cons.mpr ⟨root, fun item member => ?_⟩
    have below := (fits item member).2
    omega
  · intro shallow
    have whole := shallow.running_drop 0
    rwa [List.drop_zero] at whole

theorem Grown.isWellFormed_eq_none {t : Outline α} (grown : t.Grown) (deep : ¬ t.Shallow) :
    Bounded.isWellFormed t = none := by
  refine Option.eq_none_iff_forall_ne_some.mpr fun answer found => ?_
  obtain ⟨-, rfl⟩ := (Bounded.isWellFormed_eq_some_iff grown.sound.1).mp found
  exact deep (grown.isWellFormed_iff.mp found)

/-- A node has more nodes in front of it than levels above it. -/
theorem length_le_place {tree sub : Rose α} {path : List Nat} (found : tree.at? path = some sub) :
    path.length ≤ tree.place path := by
  induction path generalizing tree with
  | nil => exact Nat.le_refl 0
  | cons i path ih =>
    rw [at?_cons] at found
    obtain ⟨child, selected, found⟩ := Option.bind_eq_some_iff.mp found
    have deeper := ih found
    rw [List.length_cons, place, selected]
    simp only [Option.map_some, Option.getD_some]
    omega

theorem Grown.shallow {t : Outline α} (grown : t.Grown) (few : t.size ≤ 2147483648) :
    t.Shallow := by
  obtain ⟨tree, rfl⟩ := grown
  intro node inside
  obtain ⟨path, sub, -, found, rfl⟩ := exists_path (size_ofRose tree ▸ inside)
  have := length_le_place found
  rw [depth_place found]
  omega

end StepScript.Outline
