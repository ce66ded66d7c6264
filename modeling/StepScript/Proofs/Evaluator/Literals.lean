import StepScript.Proofs.Evaluator.Equivalence
import StepScript.Proofs.Value.Properties
import StepScript.Proofs.Value.Rendering

/-! Running the text of an object.

The text of an object of data is the literal of an object. Evaluating it makes new
objects, the inner ones first, and the last of them stands for the same tree as the
object that the text was taken from. So it has the same text.
-/

set_option autoImplicit false

namespace StepScript

open Branch Evaluator

variable {σ τ α β : Type}

/-! ## Evaluations that give a value -/

def Eval.Gives (x : Eval σ α) (s : Store σ) (a : α) (s' : Store σ) : Prop :=
  x.run s = some (.ok a, s')

namespace Eval.Gives

variable {x : Eval σ α} {f : α → Eval σ β} {s s' s'' : Store σ} {a : α} {b : β}

theorem pure (a : α) (s : Store σ) : (Pure.pure a : Eval σ α).Gives s a s := rfl

theorem bind (first : x.Gives s a s') (second : (f a).Gives s' b s'') :
    (x >>= f).Gives s b s'' := by
  have run : (x >>= f).run s = (x.run s).bind fun answer =>
      (ExceptT.bindCont f answer.1) answer.2 := rfl
  unfold Gives at *
  rw [run, first]
  exact second

theorem store (s : Store σ) : (Eval.store : Eval σ (Store σ)).Gives s s s := rfl

theorem setStore (s s' : Store σ) : (Eval.setStore s').Gives s () s' := rfl

end Eval.Gives

/-! ## Making objects -/

structure Store.Extends (s s' : Store σ) : Prop where
  kept : ∀ (id : Nat) (object : Object), s.objects[id]? = some object →
    s'.objects[id]? = some object
  size_le : s.objects.size ≤ s'.objects.size

namespace Store.Extends

variable {s s' s'' : Store σ}

theorem refl (s : Store σ) : s.Extends s :=
  ⟨fun _ _ found => found, Nat.le_refl _⟩

theorem trans (first : s.Extends s') (second : s'.Extends s'') : s.Extends s'' :=
  ⟨fun id object found => second.kept id object (first.kept id object found),
    Nat.le_trans first.size_le second.size_le⟩

end Store.Extends

theorem Shows.extends {s s' : Store σ} {base : Nat} {value : Value} {tree : Branch}
    (shows : Shows s base value tree) (extended : s.Extends s') : Shows s' base value tree :=
  shows.congr fun id object _ found => extended.kept id object found

def Store.push (s : Store σ) (object : Object) : Store σ :=
  { s with objects := s.objects.push object }

theorem Store.extends_push (s : Store σ) (object : Object) : s.Extends (s.push object) := by
  constructor
  · intro id other found
    have bound := (Array.getElem?_eq_some_iff.mp found).1
    rw [push, Array.getElem?_push, if_neg (Nat.ne_of_lt bound)]
    exact found
  · simp [push]

theorem Store.insert_push (s : Store σ) {key : String} {value : Value}
    {props : List (String × Value)} (new : key ∉ props.map (·.1)) :
    (s.push ⟨.null, props⟩).insert s.objects.size key value =
      s.push ⟨.null, props ++ [(key, value)]⟩ := by
  have objects : ((s.objects.push ⟨.null, props⟩).modify s.objects.size fun object =>
      { object with props := insertProp key value object.props }) =
      s.objects.push ⟨.null, props ++ [(key, value)]⟩ := by
    apply Array.ext_getElem?
    intro i
    rw [Array.getElem?_modify, Array.getElem?_push, Array.getElem?_push]
    by_cases last : s.objects.size = i
    · simp [last, insertProp_of_notMem new]
    · simp [last, Ne.symm last]
  simp only [insert, push, objects]

def inTurn (props : List (String × Value)) : List Value :=
  props.flatMap fun prop => [.string prop.1, prop.2]

theorem gives_fillObject (s : Store σ) {done props : List (String × Value)}
    (distinct : ((done ++ props).map (·.1)).Nodup) :
    (Eval.fillObject s.objects.size (inTurn props)).Gives (s.push ⟨.null, done⟩) ()
      (s.push ⟨.null, done ++ props⟩) := by
  induction props generalizing done with
  | nil =>
    rw [List.append_nil]
    exact .pure _ _
  | cons prop props ih =>
    have new : prop.1 ∉ done.map (·.1) := by
      rw [List.map_append, List.map_cons] at distinct
      intro member
      exact (List.nodup_append.mp distinct).2.2 _ member _ (by simp) rfl
    have more := @ih (done ++ [prop]) (by simpa using distinct)
    rw [List.append_assoc, List.singleton_append, ← s.insert_push new] at more
    exact .bind (.store _) (.bind (.store _) (.bind (.setStore _ _) more))

theorem gives_makeObject (s : Store σ) {props : List (String × Value)}
    (distinct : (props.map (·.1)).Nodup) :
    (Eval.makeObject (inTurn props)).Gives s (.object s.objects.size) (s.push ⟨.null, props⟩) := by
  have filled := @gives_fillObject σ s [] props distinct
  exact .bind (.store _) (.bind (.setStore _ _) (.bind filled (.pure _ _)))

theorem Shows.push {s : Store σ} {base : Nat} {props : List (String × Value)}
    {tree : String → Branch} (bound : base ≤ s.objects.size) (distinct : (props.map (·.1)).Nodup)
    (below : ∀ prop ∈ props, Shows s base prop.2 (tree prop.1)) :
    Shows (s.push ⟨.null, props⟩) base (.object s.objects.size)
      (objectTree (props.map (·.1)) tree) := by
  have found : (s.push ⟨.null, props⟩).objects[s.objects.size]? = some ⟨.null, props⟩ := by
    simp [Store.push]
  exact .object found bound distinct fun prop member =>
    (below prop member).extends (s.extends_push _)

/-! ## Evaluating trees of literals -/

section

variable {host : Host σ} {depthLimit : Nat} {here : Activation}

/-- Evaluating the tree gives a value that stands for it, made of new objects. -/
def Rebuilds (base : Nat) (eval : Branch → Eval σ Value) (tree : Branch) : Prop :=
  ∀ s : Store σ, base ≤ s.objects.size → ∃ value s', (eval tree).Gives s value s' ∧ s.Extends s' ∧
    Shows s' base value tree

theorem gives_entries {base : Nat} {eval : Branch → Eval σ Value} {keys : List String}
    {tree : String → Branch}
    (name : ∀ key ∈ keys, ∀ s, (eval (lit (.string key))).Gives s (.string key) s)
    (group : ∀ key ∈ keys, Rebuilds base (fun inner => eval (op .grouping [inner])) (tree key))
    {s : Store σ} (bound : base ≤ s.objects.size) :
    ∃ props s', (evalAll eval (keys.flatMap fun key =>
        [lit (.string key), op .grouping [tree key]])).Gives s (inTurn props) s' ∧
      s.Extends s' ∧ props.map (·.1) = keys ∧
        ∀ prop ∈ props, Shows s' base prop.2 (tree prop.1) := by
  -- By induction on the keys; the later entries leave the objects of the first one as they are.
  induction keys generalizing s with
  | nil => exact ⟨[], s, .pure _ _, .refl s, rfl, by simp⟩
  | cons key keys ih =>
    obtain ⟨here, names⟩ := List.forall_mem_cons.mp name
    obtain ⟨first, others⟩ := List.forall_mem_cons.mp group
    obtain ⟨value, middle, given, extended, shows⟩ := first s bound
    obtain ⟨props, s', rest, extends', same, shown⟩ :=
      ih names others (Nat.le_trans bound extended.size_le)
    refine ⟨(key, value) :: props, s', ?_, extended.trans extends', by rw [List.map_cons, same], ?_⟩
    · change (evalAll eval (lit (.string key) :: op .grouping [tree key] ::
        keys.flatMap _)).Gives s (.string key :: value :: inTurn props) s'
      rw [evalAll, evalAll]
      exact .bind (here s) (.bind (.bind given (.bind rest (.pure _ _))) (.pure _ _))
    · exact List.forall_mem_cons.mpr ⟨shows.extends extends', shown⟩

theorem size_lt_objectTree {keys : List String} {key : String} (tree : String → Branch)
    (member : key ∈ keys) : (tree key).size + 1 < (objectTree keys tree).size := by
  have listed : op .grouping [tree key] ∈ keys.flatMap fun key =>
      [lit (.string key), op .grouping [tree key]] :=
    List.mem_flatMap.mpr ⟨key, member, by simp⟩
  have below := Rose.size_le_forestSize listed
  have group : (op .grouping [tree key]).size = (tree key).size + 1 := Rose.size_eq _
  rw [Rose.size_eq (objectTree keys tree)]
  exact Nat.lt_succ_of_le (group ▸ below)

/-- Evaluating a tree that stands for a value makes such a value anew. -/
theorem Shows.rebuilds {s₀ : Store τ} {base₀ : Nat} {value : Value} {tree : Branch}
    (shows : Shows s₀ base₀ value tree) (base : Nat) {fuel : Nat} (enough : tree.size ≤ fuel) :
    Rebuilds base (eval host depthLimit fuel here) tree := by
  -- The induction follows the old value. Only its tree counts for what is made.
  induction shows generalizing fuel with
  | @constant value constant =>
    obtain ⟨fuel, rfl⟩ := Nat.exists_eq_add_of_le' (Nat.lt_of_lt_of_le (Rose.size_pos _) enough)
    exact fun s _ => ⟨value, s, .pure _ _, .refl s, .constant constant⟩
  | @number x y same plain finite =>
    obtain ⟨fuel, rfl⟩ := Nat.exists_eq_add_of_le' (Nat.lt_of_lt_of_le (Rose.size_pos _) enough)
    exact fun s _ => ⟨.number y, s, .pure _ _, .refl s, .number rfl plain finite⟩
  | @negative x y same signed plain finite =>
    obtain ⟨fuel, rfl⟩ := Nat.exists_eq_add_of_le' enough
    exact fun s _ => ⟨.number (-y), s, rfl, .refl s, .negative rfl signed plain finite⟩
  | @object id object tree found above distinct below ih =>
    intro s bound
    obtain ⟨fuel, rfl⟩ := Nat.exists_eq_add_of_le' (Nat.lt_of_lt_of_le (Rose.size_pos _) enough)
    have group : ∀ key ∈ object.props.map (·.1),
        Rebuilds base (fun inner => eval host depthLimit fuel here (op .grouping [inner]))
          (tree key) := by
      intro key member
      obtain ⟨prop, listed, rfl⟩ := List.mem_map.mp member
      have smaller := size_lt_objectTree tree member
      obtain ⟨rest, rfl⟩ : ∃ rest, fuel = rest + 1 := ⟨fuel - 1, by omega⟩
      exact ih prop listed (by omega)
    have name : ∀ key ∈ object.props.map (·.1), ∀ s,
        (eval host depthLimit fuel here (lit (.string key))).Gives s (.string key) s := by
      intro key member s
      have smaller := size_lt_objectTree tree member
      obtain ⟨rest, rfl⟩ : ∃ rest, fuel = rest + 1 := ⟨fuel - 1, by omega⟩
      exact .pure _ _
    obtain ⟨props, s', given, extended, same, shown⟩ := gives_entries name group bound
    have shows := Shows.push (Nat.le_trans bound extended.size_le) (same ▸ distinct) shown
    rw [same] at shows
    exact ⟨_, _, .bind given (gives_makeObject s' (same ▸ distinct)),
      extended.trans (s'.extends_push _), shows⟩

theorem Rebuilds.run_eq {fuel global : Nat} {tree : Branch} {s : Store σ}
    (rebuilds : Rebuilds s.objects.size (eval host depthLimit fuel ⟨.object global, 1⟩) tree)
    (bound : global < s.objects.size) (name : String) :
    ∃ value s', run host depthLimit (fuel + 2) (.object global) (declaration name tree) s =
      some (.ok value, s') ∧ Shows s' s.objects.size value tree := by
  obtain ⟨value, s', given, -, shows⟩ := rebuilds s (Nat.le_refl _)
  have named : (Eval.bind (.object global) name value).Gives s' () (s'.insert global name value) :=
    .bind (.store s') (.setStore s' _)
  have declared : (eval host depthLimit (fuel + 2) ⟨.object global, 1⟩
      (stmt .expression [.node (.declare name) [tree]])).Gives s value
        (s'.insert global name value) :=
    .bind given (.bind named (.pure _ _))
  have whole : (sequence (eval host depthLimit (fuel + 2) ⟨.object global, 1⟩) .undefined
      (declaration name tree).children).Gives s value (s'.insert global name value) :=
    .bind declared (.pure _ _)
  refine ⟨value, s'.insert global name value, ?_, ?_⟩
  · unfold run
    rw [whole]
    rfl
  -- The name is bound in the global object, which is not one of the new objects.
  · apply shows.congr
    intro id object above found
    have other : global ≠ id := Nat.ne_of_lt (Nat.lt_of_lt_of_le bound above)
    rw [Store.insert, Array.getElem?_modify, if_neg other]
    exact found

end

theorem Shows.object_iff {s : Store σ} {base : Nat} {value : Value} {tree : Branch}
    (shows : Shows s base value tree) :
    (∃ id, value = .object id) ↔ tree.value = .operation .objectLiteral := by
  cases shows with
  | constant constant =>
    constructor
    · rintro ⟨id, rfl⟩
      cases constant
    · rintro ⟨⟩
  | number | negative =>
    constructor
    · rintro ⟨id, ⟨⟩⟩
    · rintro ⟨⟩
  | object found =>
    constructor
    · intro _
      rfl
    · intro _
      exact ⟨_, rfl⟩

/-- Running the text of an object of data on a fresh machine succeeds, and gives an
object with the same text. -/
theorem text_of_execute {s : Store τ} {id : Nat} (data : s.IsData id) {host : Host σ}
    (keeps : host.Keeps) {store : Store σ} (bodies : store.Bodies) :
    ∃ code, parse ("var r = " ++ s.text (.object id) ++ ";") = .ok code ∧
      ∃ steps copy after,
        Machine.execute host steps ((Machine.fresh store).feed code) =
          some (.ok (.object copy), after) ∧
        after.store.text (.object copy) = s.text (.object id) := by
  obtain ⟨tree, shows⟩ := data.exists_shows
  have parsed := shows.parse_text
  refine ⟨_, parsed, ?_⟩
  obtain ⟨whole, same, shaped, isUnit⟩ := rooted_parse parsed
  have unit : whole = declaration "r" tree := by
    rw [← Outline.toRose_ofRose whole, ← same, Outline.toRose_ofRose]
  subst unit
  -- The machine has one object, its global scope, and all others are new.
  have rebuilds : Rebuilds (store.objects.size + 1) (eval host Machine.defaultDepthLimit tree.size
      ⟨.object store.objects.size, 1⟩) tree := shows.rebuilds _ (Nat.le_refl _)
  have fresh : (Machine.fresh store).store.objects.size = store.objects.size + 1 :=
    Array.size_push _
  rw [← fresh] at rebuilds
  obtain ⟨value, s', ran, shown⟩ := rebuilds.run_eq (by omega) "r"
  obtain ⟨steps, after, stops, stored⟩ := Machine.execute_of_run keeps (m := Machine.fresh store)
    rfl (bodies.newObject _) shaped isUnit ran
  obtain ⟨copy, rfl⟩ := shown.object_iff.mpr (shows.object_iff.mp ⟨id, rfl⟩)
  refine ⟨steps, copy, after, stops, ?_⟩
  rw [stored, ← String.toList_inj, shown.toList_text, shows.toList_text]

theorem text_of_execute_of_nested :
    let s : Store Unit := ⟨#[⟨.null, [("a\n", .number (-1.5)), ("\"", .object 1)]⟩,
      ⟨.null, [("c", .string "\\")]⟩], #[], #[], ()⟩
    let host : Host Unit := ⟨fun _ _ => pure .undefined⟩
    s.IsData 0 ∧ host.Keeps ∧
      s.text (.object 0) = "\x7b\"a\\n\":-1.5,\"\\\"\":\x7b\"c\":\"\\\\\"\x7d\x7d" ∧
      ∃ code, parse ("var r = " ++ s.text (.object 0) ++ ";") = .ok code ∧
        ∃ steps copy after,
          Machine.execute host steps ((Machine.fresh (Store.empty ())).feed code) =
            some (.ok (.object copy), after) ∧
          after.store.text (.object copy) = s.text (.object 0) := by
  intro s host
  have holds {outer inner : Nat} (held : s.Holds outer inner) : outer = 0 ∧ inner = 1 := by
    obtain ⟨object, key, found, member⟩ := held
    match outer with
    | 0 =>
      cases found
      have entry : key = "\"" ∧ inner = 1 := by simpa [s] using member
      exact ⟨rfl, entry.2⟩
    | 1 =>
      cases found
      simp [s] at member
    | n + 2 => simp [s] at found
  have reached {inner : Nat} (way : Relation.ReflTransGen s.Holds 0 inner) :
      inner = 0 ∨ inner = 1 := by
    cases way with
    | refl => exact .inl rfl
    | tail _ last => exact .inr (holds last).2
  have downward {outer inner : Nat} (way : Relation.TransGen s.Holds outer inner) :
      outer = 0 ∧ inner = 1 := by
    induction way with
    | single held => exact holds held
    | tail _ held before =>
      have after := holds held
      omega
  have data : s.IsData 0 := by
    constructor
    · intro inner way
      rcases reached way with rfl | rfl
      · exact ⟨_, rfl, by decide, by decide⟩
      · exact ⟨_, rfl, by decide, by decide⟩
    · intro inner _ cycle
      have ends := downward cycle
      omega
  have keeps : host.Keeps := fun _ _ => .pure _
  exact ⟨data, keeps, by decide, text_of_execute data keeps (Store.bodies_empty ())⟩

end StepScript
