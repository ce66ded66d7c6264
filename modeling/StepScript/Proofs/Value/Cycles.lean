import StepScript.Proofs.Value.References
import StepScript.Proofs.Value.Rendering

/-! Texts of objects that refer to each other.

Writing an object goes down from property to property. On its own this would not end where objects
refer to each other in a circle. The guard is the list of the objects on the way down: one of them
is not entered again, and a mark stands for it. `Draws` is this recursion as it is, with no bound
on its depth, and with the guard as a parameter. With the guard it comes to an end from every
object; without it, it comes to an end where there is no circle, and to the same text.
-/

set_option autoImplicit false

namespace StepScript

open Relation

variable {σ : Type}

/-- What is written for a value: the text of what is no object, the mark, or the properties of an
object with what is written for each. -/
inductive Picture where
  | plain (text : String)
  | mark
  | object (props : List (String × Picture))

namespace Picture

def text : Picture → String
  | plain text => text
  | mark => cycleMark
  | object props => "\x7b" ++ ",".intercalate (props.map fun prop =>
      Text.quoted prop.1 ++ ":" ++ prop.2.text) ++ "\x7d"
  decreasing_by
    have inside := List.sizeOf_lt_of_mem ‹_›
    cases prop
    simp only [Prod.mk.sizeOf_spec, object.sizeOf_spec] at inside ⊢
    omega

/-- What is written at the end of a way down, which is told by positions of properties. -/
def at? : Picture → List Nat → Option Picture
  | picture, [] => some picture
  | object props, position :: way => props[position]?.bind fun prop => prop.2.at? way
  | _, _ :: _ => none

end Picture

def Value.written : Value → String
  | string text => Text.quoted text
  | other => other.plainText

namespace Store

/-- The recursion that writes a value comes to this picture. `path` has the objects on the way
down, the last one first; an object is not entered where `stops` says so. -/
inductive Draws (s : Store σ) (stops : List Nat → Nat → Prop) :
    List Nat → Value → Picture → Prop where
  | plain {path : List Nat} {value : Value} (other : ∀ id, value ≠ .object id) :
    Draws s stops path value (.plain value.written)
  | mark {path : List Nat} {id : Nat} (stop : stops path id) :
    Draws s stops path (.object id) .mark
  | object {path : List Nat} {id : Nat} {object : Object} {picture : Value → Picture}
    (on : ¬stops path id) (found : s.objects[id]? = some object)
    (inside : ∀ prop ∈ object.props, Draws s stops (id :: path) prop.2 (picture prop.2)) :
    Draws s stops path (.object id) (.object (object.props.map fun prop => (prop.1, picture prop.2)))

def Again (path : List Nat) (id : Nat) : Prop :=
  id ∈ path

def Never (_ : List Nat) (_ : Nat) : Prop :=
  False

/-- From the first value, the properties at these positions lead to the last one. The objects that
they belong to are passed in this order. -/
inductive Walk (s : Store σ) : Value → List Nat → List Nat → Value → Prop where
  | here {value : Value} : Walk s value [] [] value
  | down {id position : Nat} {object : Object} {prop : String × Value} {way passed : List Nat}
    {last : Value} (found : s.objects[id]? = some object)
    (held : object.props[position]? = some prop) (more : Walk s prop.2 way passed last) :
    Walk s (.object id) (position :: way) (id :: passed) last

def Linked (s : Store σ) : Prop :=
  ∀ outer inner, s.Holds outer inner → inner < s.objects.size

def Acyclic (s : Store σ) (id : Nat) : Prop :=
  ∀ inner, ReflTransGen s.Holds id inner → ¬TransGen s.Holds inner inner

/-- Closed stores are linked, so what programs do keeps them linked. -/
theorem Closed.linked {held : σ → Value → Prop} {s : Store σ} (closed : s.Closed held) :
    s.Linked := by
  rintro outer inner ⟨object, key, found, member⟩
  exact (closed.objects object (Array.mem_of_getElem? found)).props _ member

section

variable {s : Store σ} {stops : List Nat → Nat → Prop} {path : List Nat} {value : Value}
  {picture : Picture}

/-! ## One picture for each value -/

theorem Draws.unique {other : Picture} (draws : s.Draws stops path value picture)
    (draws' : s.Draws stops path value other) : picture = other := by
  induction draws generalizing other with
  | plain others =>
    cases draws' with
    | plain => rfl
    | mark | object => exact absurd rfl (others _)
  | mark stop =>
    cases draws' with
    | plain others => exact absurd rfl (others _)
    | mark => rfl
    | object on => exact absurd stop on
  | object on found _ ih =>
    cases draws' with
    | plain others => exact absurd rfl (others _)
    | mark stop => exact absurd stop on
    | object _ found' inside' =>
      cases found.symm.trans found'
      refine congrArg Picture.object (List.map_congr_left fun prop member => ?_)
      rw [ih prop member (inside' prop member)]

theorem innerText_of_plain (s : Store σ) (other : ∀ id, value ≠ .object id) (limit : Nat)
    (path : List Nat) : s.innerText limit path value = value.written := by
  cases value with
  | object id => exact absurd rfl (other id)
  | _ => rfl

theorem text_object {object : Object} {picture : Value → Picture} {text : Value → String}
    (same : ∀ prop ∈ object.props, (picture prop.2).text = text prop.2) :
    (Picture.object (object.props.map fun prop => (prop.1, picture prop.2))).text =
      propsText text object.props := by
  have entries : (object.props.map fun prop => (prop.1, picture prop.2)).map (fun prop =>
      Text.quoted prop.1 ++ ":" ++ prop.2.text) = object.props.map fun prop =>
        Text.quoted prop.1 ++ ":" ++ text prop.2 := by
    rw [List.map_map]
    refine List.map_congr_left fun prop member => ?_
    rw [Function.comp_apply, same prop member]
  rw [Picture.text, propsText, entries]

theorem Linked.within (linked : s.Linked) {id : Nat} {object : Object}
    (found : s.objects[id]? = some object) {prop : String × Value}
    (member : prop ∈ object.props) : prop.2.Within s.objects.size := by
  obtain ⟨key, value⟩ := prop
  cases value with
  | object inner => exact linked id inner ⟨object, key, found, member⟩
  | _ => trivial

/-- While there is room for the objects that are not on the way yet, the guarded recursion comes
to an end. -/
theorem exists_draws (linked : s.Linked) {limit : Nat} (room : s.Room limit path)
    (within : value.Within s.objects.size) :
    ∃ picture, s.Draws Again path value picture ∧ picture.text = s.innerText limit path value := by
  -- By induction on the room, of which every object that joins the path takes a part.
  induction limit using Nat.strongRecOn generalizing path value with
  | ind limit ih =>
    by_cases isObject : ∃ id, value = .object id
    · obtain ⟨id, rfl⟩ := isObject
      by_cases again : id ∈ path
      · refine ⟨.mark, .mark again, ?_⟩
        have found : path.contains id = true := List.contains_iff_mem.mpr again
        rw [innerText, objectText.eq_def]
        simp only [found, if_true, Picture.text]
      · obtain ⟨rest, rfl, joined⟩ := room.join again within
        have found := Array.getElem?_eq_getElem within
        -- Equal values have equal pictures, so these are chosen by values.
        have drawn (value : Value) : ∃ picture, ∀ prop ∈ s.objects[id].props, prop.2 = value →
            s.Draws Again (id :: path) value picture ∧
              picture.text = s.innerText rest (id :: path) value := by
          by_cases held : ∃ prop ∈ s.objects[id].props, prop.2 = value
          · obtain ⟨prop, member, rfl⟩ := held
            have inside := linked.within found member
            obtain ⟨picture, drawn⟩ := ih rest (Nat.lt_succ_self rest) joined inside
            exact ⟨picture, fun _ _ _ => drawn⟩
          · exact ⟨.mark, fun prop member same => absurd ⟨prop, member, same⟩ held⟩
        choose picture drawn using drawn
        refine ⟨_, .object again found fun prop member => (drawn _ prop member rfl).1, ?_⟩
        rw [innerText, s.objectText_eq again found]
        exact text_object fun prop member => (drawn _ prop member rfl).2
    · have other : ∀ id, value ≠ .object id := fun id same => isObject ⟨id, same⟩
      refine ⟨_, .plain other, ?_⟩
      rw [Picture.text, s.innerText_of_plain other]

/-! ## What stands at the end of a way -/

/-- At the end of a way on which no object is met twice stands what the recursion comes to from
there, and at the end of any other way stands nothing. -/
theorem Draws.at?_iff (draws : s.Draws Again path value picture) (nodup : path.Nodup)
    {way : List Nat} {part : Picture} :
    picture.at? way = some part ↔ ∃ passed last, s.Walk value way passed last ∧
      (passed.reverse ++ path).Nodup ∧ s.Draws Again (passed.reverse ++ path) last part := by
  -- By induction on the way; the objects that it passes join the path.
  induction way generalizing path value picture with
  | nil =>
    rw [Picture.at?, Option.some_inj]
    constructor
    · rintro rfl
      exact ⟨[], value, .here, nodup, draws⟩
    · rintro ⟨_, _, ⟨⟩, -, drawn⟩
      exact draws.unique drawn
  | cons position way ih =>
    cases draws with
    | plain other =>
      refine ⟨nofun, ?_⟩
      rintro ⟨_, _, ⟨⟩, -⟩
      exact absurd rfl (other _)
    | mark again =>
      refine ⟨nofun, ?_⟩
      rintro ⟨_, _, ⟨⟩, twice, -⟩
      exact absurd again (List.disjoint_of_nodup_append twice (by simp))
    | @object _ id object picture on found inside =>
      have joined (passed : List Nat) :
          (id :: passed).reverse ++ path = passed.reverse ++ (id :: path) := by
        rw [List.reverse_cons, List.append_assoc, List.singleton_append]
      rw [Picture.at?, List.getElem?_map]
      cases held : object.props[position]? with
      | none =>
        refine ⟨nofun, ?_⟩
        rintro ⟨_, _, _ | ⟨found', held', -⟩, -⟩
        cases found.symm.trans found'
        cases held.symm.trans held'
      | some prop =>
        have drawn := inside prop (List.mem_of_getElem? held)
        refine (ih drawn (List.nodup_cons.mpr ⟨on, nodup⟩)).trans ⟨?_, ?_⟩
        · rintro ⟨passed, last, walk, more⟩
          exact ⟨id :: passed, last, .down found held walk, by rwa [joined]⟩
        · rintro ⟨_, last, _ | ⟨found', held', walk⟩, more⟩
          cases found.symm.trans found'
          cases held.symm.trans held'
          rw [joined] at more
          exact ⟨_, last, walk, more⟩

theorem Walk.inside {passed way : List Nat} {last : Value} (walk : s.Walk value way passed last) :
    ∀ id ∈ passed, id < s.objects.size := by
  induction walk with
  | here => exact List.forall_mem_nil _
  | down found _ _ ih =>
    exact List.forall_mem_cons.mpr ⟨(Array.getElem?_eq_some_iff.mp found).1, ih⟩

theorem Walk.length_eq {passed way : List Nat} {last : Value}
    (walk : s.Walk value way passed last) : passed.length = way.length := by
  induction walk with
  | here => rfl
  | down _ _ _ ih => rw [List.length_cons, List.length_cons, ih]

theorem Walk.within (linked : s.Linked) {passed way : List Nat} {last : Value}
    (walk : s.Walk value way passed last) (within : value.Within s.objects.size) :
    last.Within s.objects.size := by
  induction walk with
  | here => exact within
  | down found held _ ih => exact ih (linked.within found (List.mem_of_getElem? held))

theorem Draws.stands_iff (draws : s.Draws Again [] value picture) {way : List Nat}
    {part : Picture} : picture.at? way = some part ↔ ∃ passed last,
      s.Walk value way passed last ∧ passed.Nodup ∧ s.Draws Again passed.reverse last part := by
  simpa only [List.append_nil, List.nodup_reverse] using draws.at?_iff List.nodup_nil

theorem Draws.mark_iff (draws : s.Draws Again [] value picture) {way : List Nat} :
    picture.at? way = some .mark ↔ ∃ passed inner,
      s.Walk value way passed (.object inner) ∧ passed.Nodup ∧ inner ∈ passed := by
  refine draws.stands_iff.trans ⟨?_, ?_⟩
  · rintro ⟨passed, _, walk, nodup, drawn⟩
    cases drawn with
    | mark again => exact ⟨passed, _, walk, nodup, List.mem_reverse.mp again⟩
  · rintro ⟨passed, inner, walk, nodup, again⟩
    exact ⟨passed, _, walk, nodup, .mark (List.mem_reverse.mpr again)⟩

theorem Draws.plain_iff (draws : s.Draws Again [] value picture) {way : List Nat} {text : String} :
    picture.at? way = some (.plain text) ↔ ∃ passed last, s.Walk value way passed last ∧
      passed.Nodup ∧ (∀ inner, last ≠ .object inner) ∧ last.written = text := by
  refine draws.stands_iff.trans ⟨?_, ?_⟩
  · rintro ⟨passed, last, walk, nodup, drawn⟩
    cases drawn with
    | plain other => exact ⟨passed, last, walk, nodup, other, rfl⟩
  · rintro ⟨passed, last, walk, nodup, other, rfl⟩
    exact ⟨passed, last, walk, nodup, .plain other⟩

/-- There is room for all objects at the start, and so there is for the others at the end of a
way. -/
theorem exists_draws_of_walk (linked : s.Linked) (within : value.Within s.objects.size)
    {way passed : List Nat} {last : Value} (walk : s.Walk value way passed last)
    (nodup : passed.Nodup) :
    ∃ part, s.Draws Again passed.reverse last part ∧
      part.text = s.innerText s.objects.size passed.reverse last := by
  have bounded : ∀ id ∈ passed.reverse, id < s.objects.size :=
    fun id member => walk.inside id (List.mem_reverse.mp member)
  have room : s.Room s.objects.size passed.reverse :=
    ⟨List.nodup_reverse.mpr nodup, bounded, Nat.le_add_left _ _⟩
  exact exists_draws linked room (walk.within linked within)

theorem Draws.object_iff (draws : s.Draws Again [] value picture) (linked : s.Linked)
    (within : value.Within s.objects.size) {way : List Nat} {keys : List String} :
    (∃ props, picture.at? way = some (.object props) ∧ props.map (·.1) = keys) ↔
      ∃ passed inner object, s.Walk value way passed (.object inner) ∧ passed.Nodup ∧
        inner ∉ passed ∧ s.objects[inner]? = some object ∧ object.props.map (·.1) = keys := by
  constructor
  · rintro ⟨props, stands, rfl⟩
    obtain ⟨passed, _, walk, nodup, drawn⟩ := draws.stands_iff.mp stands
    cases drawn with
    | object on found inside =>
      refine ⟨passed, _, _, walk, nodup, fun again => on (List.mem_reverse.mpr again), found, ?_⟩
      rw [List.map_map]
      rfl
  · rintro ⟨passed, inner, object, walk, nodup, new, found, rfl⟩
    obtain ⟨part, drawn, -⟩ := exists_draws_of_walk linked within walk nodup
    have stands := draws.stands_iff.mpr ⟨passed, _, walk, nodup, drawn⟩
    cases drawn with
    | plain other => exact absurd rfl (other inner)
    | mark again => exact absurd (List.mem_reverse.mp again) new
    | object on found' inside =>
      cases found.symm.trans found'
      refine ⟨_, stands, ?_⟩
      rw [List.map_map]
      rfl

theorem Draws.length_le (draws : s.Draws Again [] value picture) {way : List Nat} {part : Picture}
    (stands : picture.at? way = some part) : way.length ≤ s.objects.size := by
  obtain ⟨passed, last, walk, nodup, -⟩ := draws.stands_iff.mp stands
  have listed : passed ⊆ List.range s.objects.size :=
    fun inner member => List.mem_range.mpr (walk.inside inner member)
  have fewer := (List.subperm_of_subset nodup listed).length_le
  rwa [walk.length_eq, List.length_range] at fewer

/-! ## Without the guard -/

/-- Where there is no circle, the guard does not stop the recursion. -/
theorem Draws.of_again (draws : s.Draws Again path value picture)
    (acyclic : ∀ id, value = .object id → s.Acyclic id)
    (above : ∀ outer ∈ path, ∀ id, value = .object id → TransGen s.Holds outer id) :
    s.Draws Never path value picture := by
  induction draws with
  | plain other => exact .plain other
  | @mark path id again => exact absurd (above id again id rfl) (acyclic id rfl id .refl)
  | @object path id object picture _ found _ ih =>
    refine .object not_false found fun prop member => ih prop member ?_ ?_
    · intro inner same far reached
      have holds : s.Holds id inner := ⟨object, prop.1, found, same ▸ member⟩
      exact acyclic id rfl far (.head holds reached)
    · intro outer listed inner same
      have holds : s.Holds id inner := ⟨object, prop.1, found, same ▸ member⟩
      exact holds.above (fun outer listed => above outer listed id rfl) outer listed

/-- Without the guard the recursion comes to an end only where every way down does. -/
theorem Draws.acc (draws : s.Draws Never path value picture) :
    ∀ id, value = .object id → Acc (fun inner outer => s.Holds outer inner) id := by
  induction draws with
  | plain other => exact fun id same => absurd same (other id)
  | mark stop => cases stop
  | object _ found _ ih =>
    rintro _ ⟨⟩
    exact acc_of_held found ih

theorem acyclic_of_acc {id : Nat} (ends : Acc (fun inner outer => s.Holds outer inner) id) :
    s.Acyclic id := by
  intro inner reached
  apply not_transGen_of_acc
  induction reached with
  | refl => exact ends
  | tail _ holds ih => exact ih.inv holds

theorem Draws.never_iff {id : Nat} (draws : s.Draws Again [] (.object id) picture)
    {other : Picture} :
    s.Draws Never [] (.object id) other ↔ other = picture ∧ s.Acyclic id := by
  have free (acyclic : s.Acyclic id) : s.Draws Never [] (.object id) picture := by
    apply draws.of_again
    · rintro _ ⟨⟩
      exact acyclic
    · exact List.forall_mem_nil _
  constructor
  · intro drawn
    have acyclic := acyclic_of_acc (drawn.acc id rfl)
    exact ⟨drawn.unique (free acyclic), acyclic⟩
  · rintro ⟨rfl, acyclic⟩
    exact free acyclic

end

/-- How an object is written, circles or not. -/
structure Pictured (s : Store σ) (id : Nat) (picture : Picture) : Prop where
  /-- With the guard the recursion comes to an end, with this picture, and its text is the text of
  the object. -/
  guarded : ∀ other, s.Draws Again [] (.object id) other ↔ other = picture
  text : s.text (.object id) = picture.text
  /-- The recursion goes at most as deep as there are objects. -/
  deep : ∀ way part, picture.at? way = some part → way.length ≤ s.objects.size
  /-- The mark stands exactly where a property leads back to an object on the way to it. -/
  marks : ∀ way, picture.at? way = some .mark ↔ ∃ passed inner,
    s.Walk (.object id) way passed (.object inner) ∧ passed.Nodup ∧ inner ∈ passed
  /-- Wherever else a property leads to an object, this stands with all its properties, also if it
  is reached on several ways. -/
  objects : ∀ way keys, (∃ props, picture.at? way = some (.object props) ∧
      props.map (·.1) = keys) ↔ ∃ passed inner object,
    s.Walk (.object id) way passed (.object inner) ∧ passed.Nodup ∧ inner ∉ passed ∧
      s.objects[inner]? = some object ∧ object.props.map (·.1) = keys
  /-- All other values stand as they are. -/
  plain : ∀ way text, picture.at? way = some (.plain text) ↔ ∃ passed value,
    s.Walk (.object id) way passed value ∧ passed.Nodup ∧
      (∀ inner, value ≠ .object inner) ∧ value.written = text
  /-- Without the guard the recursion comes to an end exactly where there is no circle, and with
  the same picture. -/
  unguarded : ∀ other, s.Draws Never [] (.object id) other ↔ other = picture ∧ s.Acyclic id

/-- Every object has a text, in which marks stand for the circles and for nothing else. -/
theorem exists_pictured {s : Store σ} (linked : s.Linked) {id : Nat}
    (inside : id < s.objects.size) : ∃ picture, s.Pictured id picture := by
  have within : Value.Within s.objects.size (.object id) := inside
  obtain ⟨picture, draws, text⟩ := exists_draws_of_walk linked within .here List.nodup_nil
  exact ⟨picture, {
    guarded := fun other => ⟨fun drawn => drawn.unique draws, fun same => same ▸ draws⟩
    text := text.symm
    deep := fun way part stands => draws.length_le stands
    marks := fun way => draws.mark_iff
    objects := fun way keys => draws.object_iff linked inside
    plain := fun way text => draws.plain_iff
    unguarded := fun other => draws.never_iff }⟩

/-- An object that refers to itself, and twice to another one that leads back to it. Both times
the other one stands in full, and the marks stand at the ends of ways that come back. -/
theorem exists_pictured_shared :
    let s : Store Unit := { Store.empty () with
      objects := #[⟨.null, [("a", .object 1), ("b", .object 1), ("me", .object 0)]⟩,
        ⟨.null, [("up", .object 0), ("k", .string "v")]⟩] }
    s.Linked ∧ 0 < s.objects.size ∧ (∃ picture, s.Pictured 0 picture) ∧
      s.text (.object 0) = "\x7b\"a\":\x7b\"up\":\x7b...\x7d,\"k\":\"v\"\x7d," ++
        "\"b\":\x7b\"up\":\x7b...\x7d,\"k\":\"v\"\x7d,\"me\":\x7b...\x7d\x7d" := by
  intro s
  have linked : s.Linked := by
    rintro (_ | _ | outer) inner ⟨object, key, found, member⟩
    · cases found
      rcases member with _ | ⟨_, _ | ⟨_, _ | ⟨_, ⟨⟩⟩⟩⟩ <;> decide
    · cases found
      rcases member with _ | ⟨_, ⟨⟩ | ⟨_, ⟨⟩⟩⟩
      decide
    · cases found
  have inside : 0 < s.objects.size := by decide
  exact ⟨linked, inside, exists_pictured linked inside, by decide +kernel⟩

end Store

end StepScript
