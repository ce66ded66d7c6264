import StepScript.Proofs.Outline.Navigation

/-! Edits of outlines as edits of trees.

On a tree an edit changes the subtree at a path, or the children of the node
above it. On the outline it repairs one weight: that of the entry in front of
what is put in or taken out. `apply_ofRose` says that the two agree on every
edit, errors and resulting positions included, and `session_ofRose` that they
agree through any series of edits.
-/

set_option autoImplicit false

namespace StepScript

variable {α : Type}

/-- An edit that names nodes by position. Trees to be put in are given in linked form. -/
inductive Edit (α : Type) where
  | append (parent : Nat) (value : α)
  | prepend (parent : Nat) (value : α)
  | graft (parent : Nat) (scion : Rose α)
  | graftCopy (parent : Nat) (source : Rose α) (node : Nat)
  | clearChildren (node : Nat)
  | remove (node : Nat)
  | dissolve (node : Nat)
  | prune (target source : Nat)
  | wrap (node : Nat) (value : α)

namespace Rose

def addFirst (child : Rose α) : Rose α → Rose α
  | node value children => node value (child :: children)

def addLast (child : Rose α) : Rose α → Rose α
  | node value children => node value (children ++ [child])

def replaceChild (i : Nat) (trees : List (Rose α)) : Rose α → Rose α
  | node value children => node value (children.take i ++ trees ++ children.drop (i + 1))

def find (tree : Rose α) (n : Nat) : Except OutlineError (List Nat × Rose α) :=
  match tree.path? n with
  | some path => .ok (path, (tree.at? path).getD tree)
  | none => .error (.outOfRange n tree.size)

/-- Refuses to let the tree grow by `additional` nodes past the capacity of outlines. -/
def checkRoom (tree : Rose α) (additional : Nat) : Except OutlineError Unit :=
  if tree.size + additional > Outline.capacity then .error (.tooLarge Outline.capacity)
  else .ok ()

def graft (tree : Rose α) (parent : Nat) (scion : Rose α) :
    Except OutlineError (Rose α × Option Nat) := do
  let (path, sub) ← tree.find parent
  tree.checkRoom scion.size
  let changed := tree.modifyAt (addLast scion) path
  .ok (changed, some (changed.place (path ++ [sub.children.length])))

def replaceNode (tree : Rose α) (edit : String) (n : Nat) (trees : Rose α → List (Rose α)) :
    Except OutlineError (Rose α × Option Nat) := do
  let (path, sub) ← tree.find n
  match path.getLast? with
  | none => .error (.rootRefused edit)
  | some i => .ok (tree.modifyAt (replaceChild i (trees sub)) path.dropLast, some n)

/-- What an edit makes of a tree, and the position of its result: of the new node where one is
put in, of what stands in the place of the old one where one is taken out. -/
def apply (tree : Rose α) : Edit α → Except OutlineError (Rose α × Option Nat)
  | .append parent value => tree.graft parent (leaf value)
  | .prepend parent value => do
    let (path, _) ← tree.find parent
    tree.checkRoom 1
    let changed := tree.modifyAt (addFirst (leaf value)) path
    .ok (changed, some (changed.place (path ++ [0])))
  | .graft parent scion => tree.graft parent scion
  | .graftCopy parent source n => do
    let (_, scion) ← source.find n
    tree.graft parent scion
  | .clearChildren n => do
    let (path, _) ← tree.find n
    .ok (tree.modifyAt (fun sub => leaf sub.value) path, none)
  | .remove n => tree.replaceNode "remove" n fun _ => []
  | .dissolve n => tree.replaceNode "skip_remove" n fun sub => sub.children
  | .prune target source => do
    let (targetPath, _) ← tree.find target
    let (sourcePath, sub) ← tree.find source
    if targetPath <+: sourcePath ∧ targetPath ≠ sourcePath then
      let changed := tree.modifyAt (fun _ => sub) targetPath
      .ok (changed, some (changed.place targetPath))
    else .error (.notInside target source)
  | .wrap n value => do
    let (path, _) ← tree.find n
    tree.checkRoom 1
    let changed := tree.modifyAt (fun sub => node value [sub]) path
    .ok (changed, some (changed.place path))

def session (tree : Rose α) : List (Edit α) → Rose α × List (Except OutlineError (Option Nat))
  | [] => (tree, [])
  | edit :: edits =>
    match tree.apply edit with
    | .ok (changed, result) =>
      let (final, answers) := changed.session edits
      (final, .ok result :: answers)
    | .error e =>
      let (final, answers) := tree.session edits
      (final, .error e :: answers)

end Rose

namespace Outline

def apply (t : Outline α) : Edit α → Except OutlineError (Outline α × Option Nat)
  | .append parent value => (t.append parent value).map fun (t, n) => (t, some n)
  | .prepend parent value => (t.prepend parent value).map fun (t, n) => (t, some n)
  | .graft parent scion => (t.graft parent (ofRose scion)).map fun (t, n) => (t, some n)
  | .graftCopy parent source n =>
    (t.graftCopy parent (ofRose source) n).map fun (t, n) => (t, some n)
  | .clearChildren n => (t.clearChildren n).map fun t => (t, none)
  | .remove n => (t.remove n).map fun (t, n) => (t, some n)
  | .dissolve n => (t.dissolve n).map fun (t, n) => (t, some n)
  | .prune target source => (t.prune target source).map fun (t, n) => (t, some n)
  | .wrap n value => (t.wrap n value).map fun (t, n) => (t, some n)

def session (t : Outline α) : List (Edit α) → Outline α × List (Except OutlineError (Option Nat))
  | [] => (t, [])
  | edit :: edits =>
    match t.apply edit with
    | .ok (changed, result) =>
      let (final, answers) := changed.session edits
      (final, .ok result :: answers)
    | .error e =>
      let (final, answers) := t.session edits
      (final, .error e :: answers)

open Rose

/-! ## Entries in front of, in and behind a subtree -/

theorem modify_append_right (front rest : List (Entry α)) (k : Nat) (f : Entry α → Entry α) :
    (front ++ rest).modify (front.length + k) f = front ++ rest.modify k f := by
  induction front with
  | nil => simp
  | cons entry front ih => simp [Nat.succ_add, ih]

theorem modify_append_left (items rest : List (Entry α)) (k : Nat) (f : Entry α → Entry α)
    (bound : k < items.length) : (items ++ rest).modify k f = items.modify k f ++ rest := by
  induction items generalizing k with
  | nil => simp at bound
  | cons entry items ih =>
    cases k with
    | zero => rfl
    | succ k =>
      simp only [List.length_cons] at bound
      simp [ih k (by omega)]

theorem splice_append (front rest inserted : List (Entry α)) :
    splice (front ++ rest) front.length inserted = front ++ inserted ++ rest := by
  rw [splice, List.take_left, List.drop_left]

theorem cut_append (front middle rest : List (Entry α)) :
    cut (front ++ (middle ++ rest)) front.length (front.length + middle.length) =
      front ++ rest := by
  rw [cut, List.take_left, ← List.drop_drop, List.drop_left, List.drop_left]

theorem shift_weigh (items : List (Int × α)) (stop amount : Int) (nonempty : items ≠ []) :
    shift (weigh stop items) (items.length - 1) amount = weigh (stop + amount) items := by
  induction items with
  | nil => exact absurd rfl nonempty
  | cons item rest ih =>
    cases rest with
    | nil =>
      simp only [weigh, shift, List.length_singleton, Nat.sub_self, List.modify_zero_cons,
        firstLevel_nil]
      congr 2
      omega
    | cons next rest =>
      have tail := ih (by simp)
      simp only [shift, List.length_cons, Nat.add_sub_cancel] at tail ⊢
      rw [weigh, List.modify_succ_cons, tail, weigh]
      rfl

theorem shift_entriesBefore (tree : Rose α) (after amount : Int) :
    shift (tree.entriesBefore after) (tree.size - 1) amount = tree.entriesBefore (after + amount) := by
  have nonempty : tree.levels 0 ≠ [] := by
    rw [levels_eq]
    simp
  rw [entriesBefore_eq_weigh tree after 0, entriesBefore_eq_weigh tree (after + amount) 0,
    ← length_levels tree 0, shift_weigh _ _ _ nonempty, Int.add_assoc]

theorem length_entriesBefore (tree : Rose α) (after : Int) :
    (tree.entriesBefore after).length = tree.size := by
  rw [entriesBefore_eq_weigh tree after 0, length_weigh, length_levels]

theorem shift_subtree (front rest : List (Entry α)) (sub : Rose α) (total amount : Int) :
    shift (front ++ (sub.entriesBefore total ++ rest)) (front.length + sub.size - 1) amount =
      front ++ (sub.entriesBefore (total + amount) ++ rest) := by
  have positive := sub.size_pos
  have inside : sub.size - 1 < (sub.entriesBefore total).length := by
    rw [length_entriesBefore]
    omega
  have index : front.length + sub.size - 1 = front.length + (sub.size - 1) := by omega
  have changed := shift_entriesBefore sub total amount
  rw [shift] at changed
  rw [shift, index, modify_append_right, modify_append_left _ _ _ _ inside, changed]

/-- The entries around a subtree, which is followed by a node `total` levels below its root. The
entries in front and behind stay when the subtree is changed. -/
theorem entries_modifyAt {tree sub : Rose α} {path : List Nat} (found : tree.at? path = some sub) :
    ∃ (front rest : List (Entry α)) (total : Int), front.length = tree.place path ∧
      (ofRose tree).span front.length = (front.length + sub.size, total) ∧
      (ofRose tree).entries = front ++ (sub.entriesBefore total ++ rest) ∧
      ∀ f, ofRose (tree.modifyAt f path) = ⟨front ++ ((f sub).entriesBefore total ++ rest)⟩ := by
  obtain ⟨before, after, position, -, whole, changed⟩ := levels_modifyAt found 0
  have behind : tree.levelAt (tree.place path + sub.size) = firstLevel (-1) after := by
    rw [levelAt, whole, ← position, ← List.drop_drop, List.drop_left,
      ← length_levels sub ((0 : Int) + path.length), List.drop_left]
  have split (tree : Rose α) (sub : Rose α)
      (listed : tree.levels 0 = before ++ (sub.levels (0 + path.length) ++ after)) :
      (ofRose tree).entries = weigh path.length before ++
        (sub.entriesBefore (firstLevel (-1) after - path.length) ++ weigh (-1) after) := by
    have level : (0 + path.length : Int) + (firstLevel (-1) after - path.length) =
        firstLevel (-1) after := by omega
    rw [entries_ofRose, listed, weigh_append, firstLevel_append, firstLevel_levels, weigh_append,
      entriesBefore_eq_weigh sub _ (0 + path.length), level, Int.zero_add]
  refine ⟨weigh path.length before, weigh (-1) after, firstLevel (-1) after - path.length, ?_, ?_,
    split tree sub whole, fun f => ?_⟩
  · rw [length_weigh, position]
  · rw [length_weigh, position, span_place found, behind]
  · exact congrArg Outline.mk (split _ _ (changed f))

end Outline

namespace Rose

theorem at?_modifyAt {tree sub : Rose α} {path : List Nat} (found : tree.at? path = some sub)
    (f : Rose α → Rose α) : (tree.modifyAt f path).at? path = some (f sub) := by
  induction path generalizing tree with
  | nil => cases found; rfl
  | cons i path ih =>
    obtain ⟨value, children⟩ := tree
    rw [at?_cons, Rose.children] at found
    obtain ⟨child, selected, found⟩ := Option.bind_eq_some_iff.mp found
    rw [modifyAt, at?_cons, Rose.children, List.getElem?_modify_eq, selected]
    exact ih found

theorem place_modifyAt {tree sub : Rose α} {path : List Nat} (found : tree.at? path = some sub)
    (f : Rose α → Rose α) : (tree.modifyAt f path).place path = tree.place path := by
  induction path generalizing tree with
  | nil => rfl
  | cons i path ih =>
    obtain ⟨value, children⟩ := tree
    rw [at?_cons, Rose.children] at found
    obtain ⟨child, selected, found⟩ := Option.bind_eq_some_iff.mp found
    simp only [modifyAt, place, Rose.children, List.take_modify, List.getElem?_modify_eq, selected,
      Option.map_some, Option.map_eq_map, Option.getD_some, ih found]
    rw [List.modify_eq_self (List.length_take_le i children)]

theorem find_cases (tree : Rose α) (n : Nat) :
    (∃ path sub, tree.find n = .ok (path, sub) ∧ tree.at? path = some sub ∧ tree.place path = n) ∨
      tree.find n = .error (.outOfRange n tree.size) ∧ tree.size ≤ n := by
  by_cases bound : n < tree.size
  · obtain ⟨path, sub, named, found, position⟩ := exists_path bound
    exact .inl ⟨path, sub, by simp [find, named, found], found, position⟩
  · have past : tree.size ≤ n := by omega
    exact .inr ⟨by simp [find, path?_eq_none past], past⟩

end Rose

namespace Outline

open Rose

theorem checkNode_ofRose (tree : Rose α) (n : Nat) :
    (ofRose tree).checkNode n = (tree.find n).map fun _ => () := by
  rcases find_cases tree n with ⟨path, sub, named, found, rfl⟩ | ⟨named, past⟩
  · rw [checkNode, size_ofRose, if_pos (place_lt_size found), named]
    rfl
  · rw [checkNode, size_ofRose, if_neg (by omega), named]
    rfl

theorem checkRoom_ofRose (tree : Rose α) (additional : Nat) :
    (ofRose tree).checkRoom additional = tree.checkRoom additional := by
  rw [Outline.checkRoom, Rose.checkRoom, size_ofRose]

/-! ## Putting nodes in -/

theorem span_of_isLeaf (t : Outline α) (n : Nat) (bound : n < t.size) (leaf : t.isLeaf n = true) :
    t.span n = (n + 1, t.weight n) := by
  obtain ⟨entries⟩ := t
  rw [size] at bound
  simp only [isLeaf, Outline.weight, List.getElem?_eq_getElem bound, Option.map_some,
    Option.getD_some, decide_eq_true_eq] at leaf ⊢
  have atEnd : 0 + entries[n].weight ≤ 0 := by omega
  rw [span, List.drop_eq_getElem_cons bound, extent, if_pos atEnd, Int.zero_add]

/-- Under a leaf and under an inner node alike, a graft goes to the end of the subtree, and the
entry in front of it then leads one level down. -/
theorem graft_eq (t scion : Outline α) (n : Nat) (bound : n < t.size)
    (room : t.size + scion.size ≤ capacity) :
    t.graft n scion = .ok (⟨splice (shift t.entries ((t.span n).1 - 1) (1 - (t.span n).2))
      (t.span n).1 (shift scion.entries (scion.size - 1) (t.span n).2)⟩, (t.span n).1) := by
  have fits : ¬ (t.size + scion.size > capacity) := by omega
  simp only [graft, checkNode, if_pos bound, checkRoom, if_neg fits, bind, Except.bind]
  cases leaf : t.isLeaf n with
  | false => rfl
  | true =>
    have raised : reweigh t.entries n 1 = shift t.entries n (1 - t.weight n) := by
      obtain ⟨entries⟩ := t
      rw [size] at bound
      simp only [reweigh, shift, Outline.weight, List.getElem?_eq_getElem bound, Option.map_some,
        Option.getD_some, List.modify_eq_take_cons_drop bound]
      congr 3
      omega
    simp only [span_of_isLeaf t n bound leaf, if_true, Nat.add_sub_cancel, raised]

theorem append_eq_graft (t : Outline α) (n : Nat) (value : α) :
    t.append n value = t.graft n (ofRose (leaf value)) := by
  have alone : (ofRose (leaf value)).size = 1 := rfl
  have lone (total : Int) : shift (ofRose (leaf value)).entries 0 total = [⟨total - 1, value⟩] := by
    have weight : (-1 : Int) + total = total - 1 := by omega
    simp only [ofRose, leaf, entriesBefore, forestBefore, List.isEmpty_nil, if_true, shift,
      List.modify_zero_cons, weight]
  simp only [append, graft, alone, Nat.sub_self, lone]

theorem levels_addLast (sub scion : Rose α) (level : Int) :
    (addLast scion sub).levels level = sub.levels level ++ scion.levels (level + 1) := by
  cases sub
  simp [addLast, levels, forestLevels_append, forestLevels]

theorem entriesBefore_addLast (sub scion : Rose α) (total : Int) :
    (addLast scion sub).entriesBefore total =
      sub.entriesBefore 1 ++ scion.entriesBefore (total - 1) := by
  have stop : (0 : Int) + 1 + (total - 1) = 0 + total := by omega
  rw [entriesBefore_eq_weigh _ total 0, levels_addLast, weigh_append, firstLevel_levels,
    entriesBefore_eq_weigh sub 1 0, entriesBefore_eq_weigh scion (total - 1) (0 + 1), stop]

theorem graft_place {tree sub : Rose α} {path : List Nat} (found : tree.at? path = some sub)
    (scion : Rose α) (room : tree.size + scion.size ≤ capacity) :
    (ofRose tree).graft (tree.place path) (ofRose scion) =
      .ok (ofRose (tree.modifyAt (addLast scion) path), tree.place path + sub.size) := by
  obtain ⟨front, rest, total, position, span, entries, changed⟩ := entries_modifyAt found
  have bound : front.length < (ofRose tree).size := by
    rw [size_ofRose, position]
    exact place_lt_size found
  have scionEnd : shift (ofRose scion).entries ((ofRose scion).size - 1) total =
      scion.entriesBefore (total - 1) := by
    have level : (-1 : Int) + total = total - 1 := by omega
    rw [size_ofRose, ofRose, shift_entriesBefore, level]
  have level : total + (1 - total) = 1 := by omega
  have place : front.length + sub.size = (front ++ sub.entriesBefore 1).length := by
    rw [List.length_append, length_entriesBefore]
  rw [← position, graft_eq _ _ _ bound (by simpa using room), span, entries, scionEnd,
    shift_subtree, level, changed, entriesBefore_addLast, ← List.append_assoc, place,
    splice_append]
  simp

theorem prepend_place {tree sub : Rose α} {path : List Nat} (found : tree.at? path = some sub)
    (value : α) (room : tree.size + 1 ≤ capacity) :
    (ofRose tree).prepend (tree.place path) value =
      .ok (ofRose (tree.modifyAt (addFirst (leaf value)) path), tree.place path + 1) := by
  obtain ⟨front, rest, total, position, -, entries, changed⟩ := entries_modifyAt found
  obtain ⟨old, children⟩ := sub
  have fits : ¬ (tree.size + 1 > capacity) := by omega
  have here : (ofRose tree).weight front.length = if children.isEmpty then total else 1 := by
    rw [Outline.weight, entries, List.getElem?_append_right (Nat.le_refl _), Nat.sub_self]
    rfl
  have raised : reweigh (ofRose tree).entries front.length 1 =
      (front ++ [⟨1, old⟩]) ++ (forestBefore (total - 1) children ++ rest) := by
    rw [reweigh, entries, ← Nat.add_zero front.length, modify_append_right]
    simp [entriesBefore]
  have next : front.length + 1 = (front ++ [(⟨1, old⟩ : Entry α)]).length := by simp
  rw [← position, prepend, checkNode, if_pos (by simpa [position] using place_lt_size found),
    Outline.checkRoom, size_ofRose, if_neg fits, changed]
  simp only [bind, Except.bind, raised, here]
  rw [next, splice_append]
  cases children with
  | nil => simp [addFirst, leaf, entriesBefore, forestBefore]
  | cons first others => simp [addFirst, leaf, entriesBefore, forestBefore]

theorem wrap_place {tree sub : Rose α} {path : List Nat} (found : tree.at? path = some sub)
    (value : α) (room : tree.size + 1 ≤ capacity) :
    (ofRose tree).wrap (tree.place path) value =
      .ok (ofRose (tree.modifyAt (fun sub => node value [sub]) path), tree.place path) := by
  obtain ⟨front, rest, total, position, span, entries, changed⟩ := entries_modifyAt found
  have fits : ¬ (tree.size + 1 > capacity) := by omega
  rw [← position, wrap, checkNode, if_pos (by simpa [position] using place_lt_size found),
    Outline.checkRoom, size_ofRose, if_neg fits, changed, stop, span, entries]
  simp only [bind, Except.bind, shift_subtree]
  rw [splice_append]
  simp [entriesBefore, forestBefore, Int.sub_eq_add_neg]

/-! ## Taking nodes out -/

theorem clearChildren_place {tree sub : Rose α} {path : List Nat}
    (found : tree.at? path = some sub) :
    (ofRose tree).clearChildren (tree.place path) =
      .ok (ofRose (tree.modifyAt (fun sub => leaf sub.value) path)) := by
  obtain ⟨front, rest, total, position, span, entries, changed⟩ := entries_modifyAt found
  obtain ⟨value, children⟩ := sub
  have ends : front.length + (node value children).size =
      (front ++ [(⟨if children.isEmpty then total else 1, value⟩ : Entry α)]).length +
        (forestBefore (total - 1) children).length := by
    have all := length_entriesBefore (node value children) total
    rw [entriesBefore, List.length_cons] at all
    simp only [List.length_append, List.length_singleton]
    omega
  have start : front.length + 1 =
      (front ++ [(⟨if children.isEmpty then total else 1, value⟩ : Entry α)]).length := by simp
  rw [← position, clearChildren, checkNode, if_pos (by simpa [position] using place_lt_size found),
    changed, span, entries]
  simp only [bind, Except.bind, ends, start, entriesBefore]
  rw [List.cons_append, List.append_cons, cut_append, reweigh, ← Nat.add_zero front.length,
    List.append_assoc, modify_append_right]
  simp [leaf, entriesBefore, forestBefore, Rose.value]

theorem subtree_place {tree sub : Rose α} {path : List Nat} (found : tree.at? path = some sub) :
    (ofRose tree).subtree (tree.place path) = ofRose sub := by
  obtain ⟨front, rest, total, position, span, entries, -⟩ := entries_modifyAt found
  have cutOut : ((ofRose tree).entries.drop front.length).take (front.length + sub.size - front.length) =
      sub.entriesBefore total := by
    rw [entries, List.drop_left, Nat.add_sub_cancel_left, ← length_entriesBefore sub total,
      List.take_left]
  have level : total + -(total + 1) = -1 := by omega
  simp only [← position, subtree, span, cutOut, length_entriesBefore, shift_entriesBefore, level]
  rfl

theorem prune_place {tree sub source : Rose α} {path rest : List Nat}
    (found : tree.at? path = some sub) (below : sub.at? rest = some source) (strict : rest ≠ []) :
    (ofRose tree).prune (tree.place path) (tree.place (path ++ rest)) =
      .ok (ofRose (tree.modifyAt (fun _ => source) path), tree.place path) := by
  have sourceFound : tree.at? (path ++ rest) = some source := by
    rw [at?_append, found]
    exact below
  obtain ⟨front, behind, total, position, span, entries, changed⟩ := entries_modifyAt found
  obtain ⟨front', behind', total', position', span', entries', -⟩ := entries_modifyAt sourceFound
  have apart : 0 < sub.place rest := by
    cases rest with
    | nil => exact absurd rfl strict
    | cons i rest =>
      rw [Rose.place]
      omega
  have inside := place_lt_size below
  have offset : front'.length = front.length + sub.place rest := by
    rw [position', position, place_append found]
  -- The entries up to the end of the source, and those behind the target.
  have kept : cut (ofRose tree).entries (front'.length + source.size) (front.length + sub.size) =
      front' ++ (source.entriesBefore total' ++ behind) := by
    have upTo : (ofRose tree).entries.take (front'.length + source.size) =
        front' ++ source.entriesBefore total' := by
      rw [entries', ← List.append_assoc, ← length_entriesBefore source total', ← List.length_append,
        List.take_left]
    have from' : (ofRose tree).entries.drop (front.length + sub.size) = behind := by
      rw [entries, ← List.append_assoc, ← length_entriesBefore sub total, ← List.length_append,
        List.drop_left]
    rw [cut, upTo, from', List.append_assoc]
  have start : front'.take front.length = front := by
    have first : (ofRose tree).entries.take front.length = front := by rw [entries, List.take_left]
    rw [entries', List.take_append_of_le_length (by omega)] at first
    exact first
  have level : total' + (total - total') = total := by omega
  have size : (ofRose tree).size = tree.size := size_ofRose tree
  have inTree := place_lt_size found
  have inTree' := place_lt_size sourceFound
  have strictly : front.length < front'.length ∧ front'.length < front.length + sub.size := by omega
  have last : front.length + (front'.length + source.size - front'.length) - 1 =
      front.length + source.size - 1 := by omega
  rw [← position, ← position', prune, checkNode, if_pos (by omega), checkNode, if_pos (by omega),
    changed]
  simp only [bind, Except.bind, span, span', if_pos strictly, kept, last]
  rw [cut, List.take_append_of_le_length (by omega), start, List.drop_left, shift_subtree, level]

theorem levels_replaceChild {tree parent child : Rose α} {path : List Nat} {i : Nat}
    (found : tree.at? path = some parent) (selected : parent.children[i]? = some child) :
    ∃ before after : List (Int × α), before ≠ [] ∧ before.length = tree.place (path ++ [i]) ∧
      tree.levels 0 = before ++ (child.levels (path.length + 1) ++ after) ∧
      ∀ trees, (tree.modifyAt (replaceChild i trees) path).levels 0 =
        before ++ (forestLevels (path.length + 1) trees ++ after) := by
  obtain ⟨front, rest, position, -, whole, changed⟩ := levels_modifyAt found 0
  rw [Int.zero_add] at whole changed
  refine ⟨front ++ ((path.length : Int), parent.value) ::
      forestLevels (path.length + 1) (parent.children.take i),
    forestLevels (path.length + 1) (parent.children.drop (i + 1)) ++ rest, by simp, ?_, ?_,
    fun trees => ?_⟩
  · simp only [List.length_append, List.length_cons, length_forestLevels, position,
      place_snoc found]
    omega
  · rw [whole, levels_eq, forestLevels_split selected]
    simp
  · rw [changed]
    cases parent
    simp [replaceChild, levels, forestLevels_append, Rose.children, Rose.value]

theorem entries_replaceChild {tree parent child : Rose α} {path : List Nat} {i : Nat}
    (found : tree.at? path = some parent) (selected : parent.children[i]? = some child) :
    ∃ before after : List (Int × α), before ≠ [] ∧ before.length = tree.place (path ++ [i]) ∧
      (ofRose tree).span before.length =
        (before.length + child.size, firstLevel (-1) after - (path.length + 1)) ∧
      (ofRose tree).entries = weigh (path.length + 1) before ++
        (child.entriesBefore (firstLevel (-1) after - (path.length + 1)) ++ weigh (-1) after) ∧
      ∀ trees, ofRose (tree.modifyAt (replaceChild i trees) path) =
        ⟨weigh (firstLevel (-1) (forestLevels (path.length + 1) trees ++ after)) before ++
          (forestBefore (firstLevel (-1) after - (path.length + 1)) trees ++ weigh (-1) after)⟩ := by
  obtain ⟨before, after, nonempty, length, listed, relisted⟩ := levels_replaceChild found selected
  have childFound : tree.at? (path ++ [i]) = some child := by rw [at?_snoc found, selected]
  have behind : tree.levelAt (tree.place (path ++ [i]) + child.size) = firstLevel (-1) after := by
    rw [levelAt, listed, ← length, ← List.drop_drop, List.drop_left,
      ← length_levels child (path.length + 1 : Int), List.drop_left]
  have stop : (path.length + 1 : Int) + (firstLevel (-1) after - (path.length + 1)) =
      firstLevel (-1) after := by omega
  refine ⟨before, after, nonempty, length, ?_, ?_, fun trees => ?_⟩
  · rw [length, span_place childFound, behind, List.length_append, List.length_singleton,
      Int.natCast_add]
    rfl
  · rw [entries_ofRose, listed, weigh_append, firstLevel_append, firstLevel_levels, weigh_append,
      entriesBefore_eq_weigh child _ (path.length + 1 : Int), stop]
  · have entries := entries_ofRose (tree.modifyAt (replaceChild i trees) path)
    rw [relisted, weigh_append, weigh_append] at entries
    rw [forestBefore_eq_weigh trees _ (path.length + 1 : Int), stop]
    exact congrArg Outline.mk entries

theorem remove_place {tree parent child : Rose α} {path : List Nat} {i : Nat}
    (found : tree.at? path = some parent) (selected : parent.children[i]? = some child) :
    (ofRose tree).remove (tree.place (path ++ [i])) =
      .ok (ofRose (tree.modifyAt (replaceChild i []) path), tree.place (path ++ [i])) := by
  obtain ⟨before, after, nonempty, position, span, entries, changed⟩ :=
    entries_replaceChild found selected
  have childFound : tree.at? (path ++ [i]) = some child := by rw [at?_snoc found, selected]
  have positive : 0 < before.length := List.length_pos_iff.mpr nonempty
  have inTree := place_lt_size childFound
  have size : (ofRose tree).size = tree.size := size_ofRose tree
  have level : (path.length + 1 : Int) + (firstLevel (-1) after - (path.length + 1)) =
      firstLevel (-1) after := by omega
  -- Once the subtree is cut out, the entry in front of it still has the old weight.
  have closed : cut (ofRose tree).entries before.length (before.length + child.size) =
      weigh (path.length + 1) before ++ weigh (-1) after := by
    have cutOut := cut_append (weigh (path.length + 1) before)
      (child.entriesBefore (firstLevel (-1) after - (path.length + 1))) (weigh (-1) after)
    rwa [length_weigh, length_entriesBefore, ← entries] at cutOut
  rw [← position, remove, checkNode, if_pos (by omega), changed]
  simp only [bind, Except.bind, if_neg (Nat.ne_of_gt positive), span, closed]
  have repaired := shift_weigh before (path.length + 1 : Int)
    (firstLevel (-1) after - (path.length + 1)) nonempty
  rw [shift] at repaired
  rw [shift, modify_append_left _ _ _ _ (by rw [length_weigh]; omega), repaired, level]
  simp [forestLevels, forestBefore]

theorem dissolve_place {tree parent child : Rose α} {path : List Nat} {i : Nat}
    (found : tree.at? path = some parent) (selected : parent.children[i]? = some child) :
    (ofRose tree).dissolve (tree.place (path ++ [i])) =
      .ok (ofRose (tree.modifyAt (replaceChild i child.children) path),
        tree.place (path ++ [i])) := by
  obtain ⟨before, after, nonempty, position, span, entries, changed⟩ :=
    entries_replaceChild found selected
  have childFound : tree.at? (path ++ [i]) = some child := by rw [at?_snoc found, selected]
  have positive : 0 < before.length := List.length_pos_iff.mpr nonempty
  have inTree := place_lt_size childFound
  have size : (ofRose tree).size = tree.size := size_ofRose tree
  have leaf := isLeaf_place childFound
  rw [← position] at leaf
  rw [← position, dissolve, checkNode, if_pos (by omega), changed]
  simp only [bind, Except.bind, if_neg (Nat.ne_of_gt positive), leaf]
  obtain ⟨value, children⟩ := child
  cases children with
  | nil =>
    simp only [Rose.children, List.isEmpty_nil, if_true]
    rw [position, remove_place found selected, changed, ← position]
  | cons first others =>
    -- The node goes and its children move up one level, so the last of them weighs one more.
    have front : (before.length : Nat) = (weigh (path.length + 1 : Int) before).length := by simp
    have level (total : Int) : total + 1 - 1 = total := by omega
    have opened := cut_append (weigh (path.length + 1) before) [(⟨1, value⟩ : Entry α)]
      (forestBefore (firstLevel (-1) after - (path.length + 1)) (first :: others) ++ weigh (-1) after)
    rw [List.length_singleton, length_weigh] at opened
    simp only [Rose.children, List.isEmpty_cons, Bool.false_eq_true, if_false, stop, span, entries]
    rw [front, shift_subtree, ← front]
    simp only [entriesBefore, List.isEmpty_cons, Bool.false_eq_true, if_false, level]
    rw [← List.singleton_append, List.append_assoc, opened, firstLevel_append,
      firstLevel_forestLevels]
    rfl

theorem drop_entries_remove {tree parent child : Rose α} {path : List Nat} {i : Nat}
    (found : tree.at? path = some parent) (selected : parent.children[i]? = some child) :
    (ofRose (tree.modifyAt (replaceChild i []) path)).entries.drop (tree.place (path ++ [i])) =
      (ofRose tree).entries.drop (tree.place (path ++ [i]) + child.size) := by
  obtain ⟨before, after, -, position, -, entries, changed⟩ := entries_replaceChild found selected
  have old : (ofRose tree).entries.drop (before.length + child.size) = weigh (-1) after := by
    rw [entries, ← length_weigh (path.length + 1 : Int) before, ← List.drop_drop, List.drop_left,
      ← length_entriesBefore child (firstLevel (-1) after - (path.length + 1)), List.drop_left]
  rw [← position, old, changed]
  simp only [forestBefore, List.nil_append]
  rw [← length_weigh (firstLevel (-1) (forestLevels (path.length + 1) [] ++ after)) before,
    List.drop_left]

/-! ## Edits and series of edits -/

def ofAnswer : Rose α × Option Nat → Outline α × Option Nat
  | (tree, result) => (ofRose tree, result)

theorem graft_ofRose (tree scion : Rose α) (n : Nat) :
    ((ofRose tree).graft n (ofRose scion)).map (fun (t, position) => (t, some position)) =
      (tree.graft n scion).map ofAnswer := by
  rcases find_cases tree n with ⟨path, sub, named, found, rfl⟩ | ⟨named, past⟩
  · by_cases room : tree.size + scion.size ≤ capacity
    · have fits : ¬ (tree.size + scion.size > capacity) := by omega
      have changed := at?_modifyAt found (addLast scion)
      have position : (tree.modifyAt (addLast scion) path).place (path ++ [sub.children.length]) =
          tree.place path + sub.size := by
        rw [place_snoc changed, place_modifyAt found, size_eq sub]
        cases sub
        simp [addLast, Rose.children]
        omega
      rw [graft_place found scion room, Rose.graft, named, ← position]
      simp only [bind, Except.bind, Rose.checkRoom, if_neg fits]
      rfl
    · have full : tree.size + scion.size > capacity := by omega
      simp only [Outline.graft, Rose.graft, checkNode_ofRose, checkRoom_ofRose, size_ofRose, named,
        Rose.checkRoom, if_pos full, bind, Except.bind, Except.map]
  · simp only [Outline.graft, Rose.graft, checkNode_ofRose, named, bind, Except.bind, Except.map]

theorem prepend_ofRose (tree : Rose α) (n : Nat) (value : α) :
    (ofRose tree).apply (.prepend n value) = (tree.apply (.prepend n value)).map ofAnswer := by
  rw [Outline.apply, Rose.apply]
  rcases find_cases tree n with ⟨path, sub, named, found, rfl⟩ | ⟨named, past⟩
  · by_cases room : tree.size + 1 ≤ capacity
    · have fits : ¬ (tree.size + 1 > capacity) := by omega
      have changed := at?_modifyAt found (addFirst (leaf value))
      have position : (tree.modifyAt (addFirst (leaf value)) path).place (path ++ [0]) =
          tree.place path + 1 := by
        rw [place_snoc changed, place_modifyAt found]
        rfl
      rw [prepend_place found value room, named]
      simp only [bind, Except.bind, Rose.checkRoom, if_neg fits, position]
      rfl
    · have full : tree.size + 1 > capacity := by omega
      simp only [Outline.prepend, checkNode_ofRose, checkRoom_ofRose, named, Rose.checkRoom,
        if_pos full, bind, Except.bind, Except.map]
  · simp only [Outline.prepend, checkNode_ofRose, named, bind, Except.bind, Except.map]

theorem wrap_ofRose (tree : Rose α) (n : Nat) (value : α) :
    (ofRose tree).apply (.wrap n value) = (tree.apply (.wrap n value)).map ofAnswer := by
  rw [Outline.apply, Rose.apply]
  rcases find_cases tree n with ⟨path, sub, named, found, rfl⟩ | ⟨named, past⟩
  · by_cases room : tree.size + 1 ≤ capacity
    · have fits : ¬ (tree.size + 1 > capacity) := by omega
      rw [wrap_place found value room, named]
      simp only [bind, Except.bind, Rose.checkRoom, if_neg fits, place_modifyAt found]
      rfl
    · have full : tree.size + 1 > capacity := by omega
      simp only [Outline.wrap, checkNode_ofRose, checkRoom_ofRose, named, Rose.checkRoom,
        if_pos full, bind, Except.bind, Except.map]
  · simp only [Outline.wrap, checkNode_ofRose, named, bind, Except.bind, Except.map]

/-- Taking out a node: the root is refused, and below it the answer is the one on the parent. -/
theorem replaceNode_ofRose (tree : Rose α) (edit : String) (n : Nat)
    (trees : Rose α → List (Rose α)) (taken : Except OutlineError (Outline α × Nat))
    (outside : tree.size ≤ n → taken = .error (.outOfRange n tree.size))
    (root : n = 0 → taken = .error (.rootRefused edit))
    (inside : ∀ path parent child i, tree.at? path = some parent →
      parent.children[i]? = some child → tree.place (path ++ [i]) = n →
      taken = .ok (ofRose (tree.modifyAt (replaceChild i (trees child)) path), n)) :
    taken.map (fun (t, position) => (t, some position)) =
      (tree.replaceNode edit n trees).map ofAnswer := by
  rcases find_cases tree n with ⟨path, sub, named, found, position⟩ | ⟨named, past⟩
  · rcases eq_nil_or_snoc path with rfl | ⟨above, i, rfl⟩
    · rw [root position.symm, replaceNode, named]
      rfl
    · obtain ⟨parent, parentFound, selected⟩ := at?_of_snoc found
      rw [inside above parent sub i parentFound selected position, replaceNode, named]
      simp only [bind, Except.bind, List.getLast?_append, List.getLast?_singleton, Option.some_or,
        List.dropLast_concat]
      rfl
  · rw [outside past, replaceNode, named]
    rfl

theorem remove_ofRose (tree : Rose α) (n : Nat) :
    (ofRose tree).apply (.remove n) = (tree.apply (.remove n)).map ofAnswer := by
  rw [Outline.apply, Rose.apply]
  apply replaceNode_ofRose
  · intro past
    rw [remove, checkNode, size_ofRose, if_neg (by omega)]
    rfl
  · rintro rfl
    rw [remove, checkNode, size_ofRose, if_pos tree.size_pos]
    rfl
  · rintro path parent child i found selected rfl
    exact remove_place found selected

theorem dissolve_ofRose (tree : Rose α) (n : Nat) :
    (ofRose tree).apply (.dissolve n) = (tree.apply (.dissolve n)).map ofAnswer := by
  rw [Outline.apply, Rose.apply]
  apply replaceNode_ofRose
  · intro past
    rw [dissolve, checkNode, size_ofRose, if_neg (by omega)]
    rfl
  · rintro rfl
    rw [dissolve, checkNode, size_ofRose, if_pos tree.size_pos]
    rfl
  · rintro path parent child i found selected rfl
    exact dissolve_place found selected

theorem strictly_below_iff {tree sub source : Rose α} {path other : List Nat}
    (found : tree.at? path = some sub) (found' : tree.at? other = some source) :
    (tree.place path < tree.place other ∧
      tree.place other < ((ofRose tree).span (tree.place path)).1) ↔
      path <+: other ∧ path ≠ other := by
  rw [span_place found]
  have inSubtree := contains_place found (tree.place other)
  rw [Outline.contains, stop_place found, Bool.and_eq_true, decide_eq_true_eq,
    decide_eq_true_eq] at inSubtree
  constructor
  · rintro ⟨lower, upper⟩
    obtain ⟨rest, item, below, same⟩ := inSubtree.mp ⟨by omega, upper⟩
    -- Inside the subtree the paths go on from `path`, and places tell paths apart.
    cases place_injective below found' same
    refine ⟨List.prefix_append path rest, fun equal => ?_⟩
    rw [← equal] at lower
    omega
  · rintro ⟨⟨rest, rfl⟩, different⟩
    obtain ⟨lower, upper⟩ := inSubtree.mpr ⟨rest, source, found', rfl⟩
    refine ⟨Nat.lt_of_le_of_ne lower fun same => different ?_, upper⟩
    exact place_injective found found' same

theorem prune_ofRose (tree : Rose α) (target source : Nat) :
    (ofRose tree).apply (.prune target source) =
      (tree.apply (.prune target source)).map ofAnswer := by
  rw [Outline.apply, Rose.apply]
  rcases find_cases tree target with ⟨path, sub, named, found, rfl⟩ | ⟨named, past⟩
  · rcases find_cases tree source with ⟨other, item, named', found', rfl⟩ | ⟨named', past'⟩
    · by_cases below : path <+: other ∧ path ≠ other
      · obtain ⟨⟨rest, rfl⟩, different⟩ := below
        have inside : sub.at? rest = some item := by
          rw [at?_append, found] at found'
          exact found'
        have strict : rest ≠ [] := fun empty => different (by simp [empty])
        rw [prune_place found inside strict, named, named']
        simp only [bind, Except.bind, List.prefix_append, ne_eq, different, not_false_eq_true,
          and_self, if_true, place_modifyAt found]
        rfl
      · have apart : ¬ (tree.place path < tree.place other ∧
            tree.place other < ((ofRose tree).span (tree.place path)).1) :=
          fun inside => below ((strictly_below_iff found found').mp inside)
        simp only [prune, checkNode_ofRose, named, named', bind, Except.bind, Except.map, if_neg apart,
          if_neg below]
    · simp only [prune, checkNode_ofRose, named, named', bind, Except.bind, Except.map]
  · simp only [prune, checkNode_ofRose, named, bind, Except.bind, Except.map]

theorem clearChildren_ofRose (tree : Rose α) (n : Nat) :
    (ofRose tree).apply (.clearChildren n) = (tree.apply (.clearChildren n)).map ofAnswer := by
  rw [Outline.apply, Rose.apply]
  rcases find_cases tree n with ⟨path, sub, named, found, rfl⟩ | ⟨named, past⟩
  · rw [clearChildren_place found, named]
    rfl
  · simp only [clearChildren, checkNode_ofRose, named, bind, Except.bind, Except.map]

theorem graftCopy_ofRose (tree source : Rose α) (parent n : Nat) :
    (ofRose tree).apply (.graftCopy parent source n) =
      (tree.apply (.graftCopy parent source n)).map ofAnswer := by
  rw [Outline.apply, Rose.apply]
  rcases find_cases source n with ⟨path, sub, named, found, rfl⟩ | ⟨named, past⟩
  · simp only [graftCopy, checkNode_ofRose, named, Except.map, bind, Except.bind,
      subtree_place found]
    exact graft_ofRose tree sub parent
  · simp only [graftCopy, checkNode_ofRose, named, bind, Except.bind, Except.map]

/-- One edit of the outline of a tree is the outline of the edited tree. -/
theorem apply_ofRose (tree : Rose α) (edit : Edit α) :
    (ofRose tree).apply edit = (tree.apply edit).map ofAnswer := by
  cases edit with
  | append parent value =>
    rw [Outline.apply, append_eq_graft]
    exact graft_ofRose tree (leaf value) parent
  | prepend parent value => exact prepend_ofRose tree parent value
  | graft parent scion => exact graft_ofRose tree scion parent
  | graftCopy parent source n => exact graftCopy_ofRose tree source parent n
  | clearChildren n => exact clearChildren_ofRose tree n
  | remove n => exact remove_ofRose tree n
  | dissolve n => exact dissolve_ofRose tree n
  | prune target source => exact prune_ofRose tree target source
  | wrap n value => exact wrap_ofRose tree n value

/-- Any series of edits, with the same answers. -/
theorem session_ofRose (tree : Rose α) (edits : List (Edit α)) :
    (ofRose tree).session edits = (ofRose (tree.session edits).1, (tree.session edits).2) := by
  induction edits generalizing tree with
  | nil => rfl
  | cons edit edits ih =>
    rw [Outline.session, Rose.session, apply_ofRose]
    cases tree.apply edit with
    | error e =>
      simp only [Except.map, ih tree]
    | ok answer =>
      obtain ⟨changed, result⟩ := answer
      simp only [Except.map, ofAnswer, ih changed]

theorem first_of_dissolved {tree child first : Rose α} {path : List Nat} {i : Nat}
    {others : List (Rose α)} (found : tree.at? (path ++ [i]) = some child)
    (kept : child.children = first :: others) :
    (tree.modifyAt (replaceChild i child.children) path).at? (path ++ [i]) = some first ∧
      (tree.modifyAt (replaceChild i child.children) path).place (path ++ [i]) =
        tree.place (path ++ [i]) := by
  obtain ⟨parent, parentFound, selected⟩ := at?_of_snoc found
  have changed := at?_modifyAt parentFound (replaceChild i child.children)
  have bound := (List.getElem?_eq_some_iff.mp selected).1
  obtain ⟨value, children⟩ := parent
  rw [Rose.children] at bound
  constructor
  · rw [at?_snoc changed, kept]
    simp [replaceChild, Rose.children, Nat.le_of_lt bound]
  · rw [place_snoc changed, place_snoc parentFound, place_modifyAt parentFound]
    simp [replaceChild, Rose.children, Nat.le_of_lt bound]

end Outline

end StepScript
