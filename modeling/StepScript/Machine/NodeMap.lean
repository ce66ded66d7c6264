/-! Things kept under the positions of nodes, in the order of the positions. -/

set_option autoImplicit false

namespace StepScript

/-- A finite map from node positions, by rising position. Maps with the same
entries under every position are the same. -/
structure NodeMap (α : Type) where
  entries : List (Nat × α)
  rising : entries.Pairwise (·.1 < ·.1)
  deriving Repr

namespace NodeMap

variable {α : Type}

def empty : NodeMap α :=
  ⟨[], .nil⟩

def find? (m : NodeMap α) (node : Nat) : Option α :=
  m.entries.lookup node

def contains (m : NodeMap α) (node : Nat) : Bool :=
  (m.find? node).isSome

def insertEntry (node : Nat) (value : α) : List (Nat × α) → List (Nat × α)
  | [] => [(node, value)]
  | (key, old) :: rest =>
    if node < key then (node, value) :: (key, old) :: rest
    else if node = key then (node, value) :: rest
    else (key, old) :: insertEntry node value rest

theorem mem_insertEntry {node : Nat} {value : α} {entries : List (Nat × α)} {entry : Nat × α}
    (member : entry ∈ insertEntry node value entries) :
    entry = (node, value) ∨ entry ∈ entries := by
  induction entries with
  | nil => simpa [insertEntry] using member
  | cons first rest ih => grind [insertEntry]

theorem rising_insertEntry (node : Nat) (value : α) {entries : List (Nat × α)}
    (rising : entries.Pairwise (·.1 < ·.1)) :
    (insertEntry node value entries).Pairwise (·.1 < ·.1) := by
  induction entries with
  | nil => simp [insertEntry]
  | cons first rest ih =>
    obtain ⟨key, old⟩ := first
    obtain ⟨below, tail⟩ := List.pairwise_cons.mp rising
    rw [insertEntry]
    split
    · rename_i less
      refine List.pairwise_cons.mpr ⟨fun entry member => ?_, rising⟩
      rcases List.mem_cons.mp member with rfl | member
      · exact less
      · exact Nat.lt_trans less (below entry member)
    · split
      · rename_i same
        subst same
        exact List.pairwise_cons.mpr ⟨below, tail⟩
      · refine List.pairwise_cons.mpr ⟨fun entry member => ?_, ih tail⟩
        rcases mem_insertEntry member with rfl | member
        · simp only
          omega
        · exact below entry member

def insert (m : NodeMap α) (node : Nat) (value : α) : NodeMap α :=
  ⟨insertEntry node value m.entries, rising_insertEntry node value m.rising⟩

def erase (m : NodeMap α) (node : Nat) : NodeMap α :=
  ⟨m.entries.filter (·.1 != node), m.rising.filter _⟩

@[simp] theorem find?_empty (node : Nat) : (empty : NodeMap α).find? node = none := rfl

theorem lookup_insertEntry (entries : List (Nat × α)) (node other : Nat) (value : α) :
    (insertEntry node value entries).lookup other =
      if other = node then some value else entries.lookup other := by
  induction entries with
  | nil => grind [insertEntry]
  | cons entry rest ih =>
    obtain ⟨key, old⟩ := entry
    grind [insertEntry]

theorem find?_insert (m : NodeMap α) (node other : Nat) (value : α) :
    (m.insert node value).find? other = if other = node then some value else m.find? other :=
  lookup_insertEntry m.entries node other value

theorem find?_erase (m : NodeMap α) (node other : Nat) :
    (m.erase node).find? other = if other = node then none else m.find? other := by
  obtain ⟨entries, rising⟩ := m
  simp only [erase, find?]
  clear rising
  induction entries with
  | nil => simp
  | cons entry rest ih =>
    obtain ⟨key, value⟩ := entry
    grind

theorem lookup_eq_none (node : Nat) (entries : List (Nat × α))
    (above : ∀ entry ∈ entries, node < entry.1) : entries.lookup node = none := by
  induction entries with
  | nil => rfl
  | cons entry rest ih => grind

theorem eq_of_lookup_eq {first second : List (Nat × α)} (rising : first.Pairwise (·.1 < ·.1))
    (rising' : second.Pairwise (·.1 < ·.1)) (same : ∀ node, first.lookup node = second.lookup node) :
    first = second := by
  induction first generalizing second with
  | nil =>
    cases second with
    | nil => rfl
    | cons entry rest =>
      have := same entry.1
      grind
  | cons entry rest ih =>
    cases second with
    | nil =>
      have := same entry.1
      grind
    | cons entry' rest' =>
      obtain ⟨key, value⟩ := entry
      obtain ⟨key', value'⟩ := entry'
      obtain ⟨above, tail⟩ := List.pairwise_cons.mp rising
      obtain ⟨above', tail'⟩ := List.pairwise_cons.mp rising'
      -- The smaller of two first keys would be missing in the other list.
      have keys : key = key' := by
        rcases Nat.lt_trichotomy key key' with less | equal | greater
        · have absent := lookup_eq_none key rest'
            fun entry member => Nat.lt_trans less (above' entry member)
          have := same key
          grind
        · exact equal
        · have absent := lookup_eq_none key' rest
            fun entry member => Nat.lt_trans greater (above entry member)
          have := same key'
          grind
      have absent := lookup_eq_none key rest above
      have absent' := lookup_eq_none key' rest' above'
      have rests : rest = rest' := by
        apply ih tail tail'
        intro node
        by_cases here : node = key
        · rw [here, absent, keys, absent']
        · have found := same node
          rwa [List.lookup_cons, List.lookup_cons, ← keys, beq_false_of_ne here] at found
      have := same key
      grind

/-- Maps are told apart by what they keep. -/
theorem ext {m m' : NodeMap α} (same : ∀ node, m.find? node = m'.find? node) : m = m' := by
  obtain ⟨entries, rising⟩ := m
  obtain ⟨entries', rising'⟩ := m'
  cases eq_of_lookup_eq rising rising' same
  rfl

theorem erase_of_find?_eq_none {m : NodeMap α} {node : Nat} (absent : m.find? node = none) :
    m.erase node = m := by
  apply ext
  intro other
  rw [find?_erase]
  split
  · rename_i same
    rw [same, absent]
  · rfl

theorem erase_insert {m : NodeMap α} {node : Nat} (absent : m.find? node = none) (value : α) :
    (m.insert node value).erase node = m := by
  apply ext
  intro other
  rw [find?_erase, find?_insert]
  split
  · rename_i same
    rw [same, absent]
  · rfl

theorem erase_insert_of_ne {m : NodeMap α} {node other : Nat} (differ : other ≠ node) (value : α) :
    (m.insert node value).erase other = (m.erase other).insert node value := by
  apply ext
  intro third
  simp only [find?_erase, find?_insert]
  grind

theorem erase_comm (m : NodeMap α) (node other : Nat) :
    (m.erase node).erase other = (m.erase other).erase node := by
  apply ext
  intro third
  simp only [find?_erase]
  grind

theorem insert_insert (m : NodeMap α) (node : Nat) (first second : α) :
    (m.insert node first).insert node second = m.insert node second := by
  apply ext
  intro other
  simp only [find?_insert]
  split
  · rfl
  · rfl

end NodeMap

end StepScript
