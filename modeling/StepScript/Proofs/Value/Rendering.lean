import StepScript.Proofs.Grammar.Completeness
import StepScript.Value.Text

/-! Data objects and their texts.

An object of data holds strings, numbers and constants, and other such objects, none of
which it reaches twice on one way. It stands for a tree of literals, `Shows`; and its
text is this tree printed with nothing between the tokens. So the text can be parsed,
and parsing gives the tree.
-/

set_option autoImplicit false

namespace StepScript

open Branch Relation

variable {σ : Type}

theorem Number.isPlain_of_isFinite {x : Float} (finite : isFinite x = true)
    (positive : isNegative x = false) : isPlain x = true := by
  simp [isPlain, positive, ne_nan_of_isFinite finite]

/-! ## Objects as trees of literals -/

def Value.isData : Value → Bool
  | number x => Number.isFinite x
  | function _ => false
  | _ => true

def Value.isConstant : Value → Bool
  | undefined | null | boolean _ | string _ => true
  | _ => false

theorem Value.isLiteral_of_isConstant {value : Value} (constant : value.isConstant = true) :
    value.isLiteral = true := by
  cases value <;> first | rfl | cases constant

def Store.Holds (s : Store σ) (outer inner : Nat) : Prop :=
  ∃ object key, s.objects[outer]? = some object ∧ (key, .object inner) ∈ object.props

/-- The object and all objects that it reaches hold data only, and there is no way from
one of them back to itself. A key has one property, as in every object. -/
structure Store.IsData (s : Store σ) (id : Nat) : Prop where
  exists_object : ∀ inner, ReflTransGen s.Holds id inner → ∃ object,
    s.objects[inner]? = some object ∧ (object.props.map (·.1)).Nodup ∧
      ∀ prop ∈ object.props, prop.2.isData = true
  acyclic : ∀ inner, ReflTransGen s.Holds id inner → ¬ TransGen s.Holds inner inner

def objectTree (keys : List String) (tree : String → Branch) : Branch :=
  op .objectLiteral (keys.flatMap fun key => [lit (.string key), op .grouping [tree key]])

/-- The value stands for the tree of literals. Its objects have numbers from `base` on. -/
inductive Shows (s : Store σ) (base : Nat) : Value → Branch → Prop where
  | constant {value : Value} (constant : value.isConstant = true) : Shows s base value (lit value)
  | number {x y : Float} (same : Number.chars x = Number.chars y)
    (plain : Number.isPlain y = true) (finite : Number.isFinite y = true) :
    Shows s base (.number x) (lit (.number y))
  | negative {x y : Float} (same : Number.chars x = Number.chars (-y))
    (signed : Number.chars (-y) = '-' :: Number.chars y) (plain : Number.isPlain y = true)
    (finite : Number.isFinite y = true) :
    Shows s base (.number x) (op .negate [lit (.number y)])
  | object {id : Nat} {object : Object} {tree : String → Branch}
    (found : s.objects[id]? = some object) (above : base ≤ id)
    (distinct : (object.props.map (·.1)).Nodup)
    (below : ∀ prop ∈ object.props, Shows s base prop.2 (tree prop.1)) :
    Shows s base (.object id) (objectTree (object.props.map (·.1)) tree)

theorem Shows.congr {s s' : Store σ} {base : Nat} {value : Value} {tree : Branch}
    (shows : Shows s base value tree)
    (same : ∀ id object, base ≤ id → s.objects[id]? = some object →
      s'.objects[id]? = some object) : Shows s' base value tree := by
  induction shows with
  | constant constant => exact .constant constant
  | number same plain finite => exact .number same plain finite
  | negative same signed plain finite => exact .negative same signed plain finite
  | object found above distinct below ih => exact .object (same _ _ above found) above distinct ih

section

variable {s : Store σ} {id inner : Nat}

theorem Store.IsData.held (data : s.IsData id) (holds : s.Holds id inner) : s.IsData inner := by
  constructor
  · intro other reached
    exact data.exists_object other (.head holds reached)
  · intro other reached
    exact data.acyclic other (.head holds reached)

/-- There are finitely many objects, so without cycles every way down ends. -/
theorem Store.IsData.acc (data : s.IsData id) :
    Acc (fun inner outer => s.Holds outer inner) id := by
  let Reached := { inner : Nat // ReflTransGen s.Holds id inner }
  let Below (a b : Reached) : Prop := TransGen s.Holds b.1 a.1
  have bounded (a : Reached) : a.1 < s.objects.size := by
    obtain ⟨object, found, -⟩ := data.exists_object a.1 a.2
    exact (Array.getElem?_eq_some_iff.mp found).1
  have finite : Finite Reached := by
    apply Finite.of_injective fun a : Reached => (⟨a.1, bounded a⟩ : Fin s.objects.size)
    intro a b same
    exact Subtype.ext (Fin.mk.inj same)
  have trans : IsTrans Reached Below := ⟨fun _ _ _ first second => second.trans first⟩
  have irrefl : Std.Irrefl Below := ⟨fun a cycle => data.acyclic a.1 a.2 cycle⟩
  have ends (a : Reached) : Acc (fun inner outer => s.Holds outer inner) a.1 := by
    induction (Finite.wellFounded_of_trans_of_irrefl Below).apply a with
    | intro a _ ih =>
      constructor
      intro inner holds
      exact ih ⟨inner, a.2.tail holds⟩ (.single holds)
  exact ends ⟨id, .refl⟩

theorem exists_shows_number {x : Float} (finite : Number.isFinite x = true) (base : Nat) :
    ∃ tree, Shows s base (.number x) tree := by
  cases negative : Number.isNegative x with
  | false => exact ⟨_, .number rfl (Number.isPlain_of_isFinite finite negative) finite⟩
  | true =>
    have positive : Number.isNegative (-x) = false := by
      rw [Number.isNegative_neg (Number.ordered_of_isFinite finite), negative]
      rfl
    have finiteNeg := Number.isFinite_neg finite
    have plain := Number.isPlain_of_isFinite finiteNeg positive
    have back := Number.chars_neg_neg finite
    rcases Number.chars_of_isNegative (Number.ne_nan_of_isFinite finite) negative with
      signed | ⟨zero, -⟩
    · exact ⟨_, .negative back.symm (back.trans signed) plain finiteNeg⟩
    · exact ⟨_, .number zero plain finiteNeg⟩

/-- An object of data stands for a tree of literals. -/
theorem Store.IsData.exists_shows (data : s.IsData id) : ∃ tree, Shows s 0 (.object id) tree := by
  have ends := data.acc
  induction ends with
  | intro id _ ih =>
    obtain ⟨object, found, distinct, plain⟩ := data.exists_object id .refl
    have shown (prop : String × Value) (member : prop ∈ object.props) :
        ∃ tree, Shows s 0 prop.2 tree := by
      have isData := plain prop member
      obtain ⟨key, value⟩ := prop
      cases value with
      | number x => exact exists_shows_number isData 0
      | object inner =>
        have holds : s.Holds id inner := ⟨object, key, found, member⟩
        exact ih inner holds (data.held holds)
      | function f => cases isData
      | undefined | null | boolean _ | string _ => exact ⟨_, .constant rfl⟩
    -- A key has one property, so the trees can be told by their keys.
    have keyed (key : String) : ∃ tree, ∀ prop ∈ object.props, prop.1 = key →
        Shows s 0 prop.2 tree := by
      by_cases known : ∃ prop ∈ object.props, prop.1 = key
      · obtain ⟨prop, member, rfl⟩ := known
        obtain ⟨tree, shows⟩ := shown prop member
        refine ⟨tree, fun other listed same => ?_⟩
        rwa [List.inj_on_of_nodup_map distinct listed member same]
      · exact ⟨lit .undefined, fun prop member same => absurd ⟨prop, member, same⟩ known⟩
    choose tree shows using keyed
    exact ⟨_, .object found (Nat.zero_le _) distinct fun prop member => shows _ prop member rfl⟩

end

/-! ## Texts of objects -/

def printed (pieces : List Piece) : List Char :=
  pieces.flatMap fun piece => piece.plain.flatMap Lexeme.chars

@[simp] theorem printed_append (front back : List Piece) :
    printed (front ++ back) = printed front ++ printed back :=
  List.flatMap_append

@[simp] theorem printed_cons (piece : Piece) (pieces : List Piece) :
    printed (piece :: pieces) = piece.plain.flatMap Lexeme.chars ++ printed pieces :=
  List.flatMap_cons

@[simp] theorem printed_nil : printed [] = [] := rfl

theorem printed_token (lexeme : Lexeme) : printed [.token lexeme] = lexeme.chars := by
  simp [Piece.plain]

theorem printed_separated (list : List (List Piece)) :
    printed (separated list) = [','].intercalate (list.map printed) := by
  induction list with
  | nil => rfl
  | cons first rest ih =>
    cases rest with
    | nil => simp [separated]
    | cons second rest =>
      rw [separated_cons first (by simp), printed_append, printed_cons, ih]
      have comma : (Piece.sign .comma).plain.flatMap Lexeme.chars = [','] := rfl
      simp [comma]

theorem pieces_objectTree (keys : List String) (tree : String → Branch) :
    (objectTree keys tree).pieces =
      .sign .openBrace :: separated (keys.map fun key =>
        .key key :: .sign .colon :: (tree key).pieces) ++ [.sign .closeBrace] := by
  have entries : Part.entries ((keys.flatMap fun key =>
      [lit (.string key), op .grouping [tree key]]).map part) =
      keys.map fun key => .key key :: .sign .colon :: (tree key).pieces := by
    induction keys with
    | nil => rfl
    | cons key keys ih =>
      have inside : (part (op .grouping [tree key])).inside = (tree key).pieces :=
        List.append_nil _
      rw [List.map_cons, ← ih, ← inside]
      rfl
  rw [objectTree, pieces_op, Operation.pieces, entries]

def Store.innerText (s : Store σ) (limit : Nat) (path : List Nat) : Value → String
  | .string text => Text.quoted text
  | .object inner => s.objectText limit path inner
  | other => other.plainText

structure Store.Room (s : Store σ) (limit : Nat) (path : List Nat) : Prop where
  nodup : path.Nodup
  bounded : ∀ id ∈ path, id < s.objects.size
  enough : s.objects.size ≤ path.length + limit

theorem Store.Room.join {s : Store σ} {limit id : Nat} {path : List Nat}
    (room : s.Room limit path) (new : id ∉ path) (bound : id < s.objects.size) :
    ∃ rest, limit = rest + 1 ∧ s.Room rest (id :: path) := by
  have nodup : (id :: path).Nodup := List.nodup_cons.mpr ⟨new, room.nodup⟩
  have bounded : ∀ inner ∈ id :: path, inner < s.objects.size :=
    List.forall_mem_cons.mpr ⟨bound, room.bounded⟩
  have listed : (id :: path) ⊆ List.range s.objects.size :=
    fun inner member => List.mem_range.mpr (bounded inner member)
  have fewer := (List.subperm_of_subset nodup listed).length_le
  rw [List.length_cons, List.length_range] at fewer
  have enough := room.enough
  refine ⟨limit - 1, by omega, nodup, bounded, ?_⟩
  rw [List.length_cons]
  omega

theorem Store.objectText_eq (s : Store σ) {rest id : Nat} {path : List Nat} {object : Object}
    (new : id ∉ path) (found : s.objects[id]? = some object) :
    s.objectText (rest + 1) path id = propsText (s.innerText rest (id :: path)) object.props := by
  rw [objectText, if_neg (by simpa using new), found]
  rfl

theorem Store.acc_of_held {s : Store σ} {id : Nat} {object : Object}
    (found : s.objects[id]? = some object)
    (ends : ∀ prop ∈ object.props, ∀ inner, prop.2 = .object inner →
      Acc (fun inner outer => s.Holds outer inner) inner) :
    Acc (fun inner outer => s.Holds outer inner) id := by
  constructor
  rintro inner ⟨object', key, found', member⟩
  cases found.symm.trans found'
  exact ends _ member inner rfl

theorem Shows.acc {s : Store σ} {base : Nat} {value : Value} {tree : Branch}
    (shows : Shows s base value tree) :
    ∀ id, value = .object id → Acc (fun inner outer => s.Holds outer inner) id := by
  induction shows with
  | constant constant =>
    rintro id rfl
    cases constant
  | number | negative => rintro id ⟨⟩
  | object found above distinct below ih =>
    rintro _ ⟨⟩
    exact Store.acc_of_held found ih

theorem Store.not_transGen_of_acc {s : Store σ} {id : Nat}
    (ends : Acc (fun inner outer => s.Holds outer inner) id) : ¬TransGen s.Holds id id := by
  intro cycle
  have below := ends.transGen
  clear ends
  induction below with
  | intro id _ ih => exact ih id (transGen_swap.mpr cycle) cycle

theorem Store.Holds.above {s : Store σ} {path : List Nat} {id inner : Nat} (holds : s.Holds id inner)
    (above : ∀ outer ∈ path, TransGen s.Holds outer id) :
    ∀ outer ∈ id :: path, TransGen s.Holds outer inner :=
  List.forall_mem_cons.mpr ⟨.single holds, fun outer listed => (above outer listed).tail holds⟩

theorem Shows.irrefl {s : Store σ} {base id : Nat} {tree : Branch}
    (shows : Shows s base (.object id) tree) : ¬TransGen s.Holds id id :=
  Store.not_transGen_of_acc (shows.acc id rfl)

theorem toList_propsText {text : Value → String} {props : List (String × Value)}
    {tree : String → Branch}
    (same : ∀ prop ∈ props, (text prop.2).toList = printed (tree prop.1).pieces) :
    (Store.propsText text props).toList =
      printed (objectTree (props.map (·.1)) tree).pieces := by
  have entries :
      (props.map fun prop => Text.quoted prop.1 ++ ":" ++ text prop.2).map String.toList =
        ((props.map (·.1)).map fun key => .key key :: .sign .colon :: (tree key).pieces).map
          printed := by
    rw [List.map_map, List.map_map, List.map_map]
    apply List.map_congr_left
    intro prop member
    have key : (Piece.key prop.1).plain.flatMap Lexeme.chars = Text.quotedChars prop.1.toList :=
      List.append_nil _
    have colon : (Piece.sign .colon).plain.flatMap Lexeme.chars = [':'] := rfl
    simp [Text.quoted, same prop member, key, colon]
  rw [pieces_objectTree, List.cons_append, printed_cons, printed_append, printed_separated,
    ← entries]
  unfold Store.propsText
  rw [String.toList_append, String.toList_append, String.toList_intercalate]
  rfl

theorem Shows.toList_innerText {s : Store σ} {base : Nat} {value : Value} {tree : Branch}
    (shows : Shows s base value tree) {limit : Nat} {path : List Nat} (room : s.Room limit path)
    (above : ∀ outer ∈ path, ∀ id, value = .object id → TransGen s.Holds outer id) :
    (s.innerText limit path value).toList = printed tree.pieces := by
  induction shows generalizing limit path with
  | @constant value constant =>
    cases value with
    | undefined => exact (printed_token (.keyword .undefined)).symm
    | null => exact (printed_token (.keyword .null)).symm
    | boolean b =>
      cases b with
      | false => exact (printed_token (.keyword .false)).symm
      | true => exact (printed_token (.keyword .true)).symm
    | string text => exact String.toList_ofList.trans (printed_token (.string text)).symm
    | number x | function f | object id => cases constant
  | @number x y same plain finite =>
    have text : printed (pieces (lit (.number y))) = Number.chars y :=
      (printed_token (.number y)).trans (Number.literalChars_of_isFinite finite)
    rw [text, ← same]
    exact String.toList_ofList
  | @negative x y same signed plain finite =>
    have text : printed (pieces (op .negate [lit (.number y)])) = '-' :: Number.chars y :=
      congrArg ('-' :: ·)
        ((printed_token (.number y)).trans (Number.literalChars_of_isFinite finite))
    rw [text, ← signed, ← same]
    exact String.toList_ofList
  | @object id object tree found base distinct below ih =>
    -- Objects on the path hold this one, so it is not on the path itself.
    have new : id ∉ path := by
      intro member
      exact (Shows.object found base distinct below).irrefl (above id member id rfl)
    obtain ⟨rest, rfl, joined⟩ := room.join new (Array.getElem?_eq_some_iff.mp found).1
    rw [Store.innerText, Store.objectText_eq s new found]
    apply toList_propsText
    intro prop member
    apply ih prop member joined
    intro outer listed inner is
    have holds : s.Holds id inner := ⟨object, prop.1, found, is ▸ member⟩
    exact holds.above (fun outer listed => above outer listed id rfl) outer listed

theorem Shows.toList_text {s : Store σ} {base id : Nat} {tree : Branch}
    (shows : Shows s base (.object id) tree) :
    (s.text (.object id)).toList = printed tree.pieces := by
  have room : s.Room s.objects.size [] := by
    constructor <;> simp
  exact shows.toList_innerText room (by simp)

/-! ## Reading texts of objects -/

theorem legible_grouping {tree : Branch} (legible : Legible tree) :
    Legible (op .grouping [tree]) := by
  have fits : tree.value.isExpression = true := by
    cases legible <;> rfl
  apply Legible.plain (by decide)
  · exact Bool.and_eq_true_iff.mpr ⟨by simpa [Operation.arity?] using fits, rfl⟩
  · constructor <;> intro between <;> cases between
  · exact List.forall_mem_singleton.mpr legible

theorem legible_objectTree {keys : List String} {tree : String → Branch}
    (values : ∀ key ∈ keys, Legible (tree key)) : Legible (objectTree keys tree) := by
  have fits (keys : List String) : Operation.entriesFit ((keys.flatMap fun key =>
      [lit (.string key), op .grouping [tree key]]).map (·.value)) = true := by
    induction keys with
    | nil => rfl
    | cons key keys ih => exact ih
  apply Legible.plain (by decide)
  · exact fits keys
  · constructor <;> intro between <;> cases between
  · intro child member
    obtain ⟨key, listed, inside⟩ := List.mem_flatMap.mp member
    rcases List.mem_pair.mp inside with rfl | rfl
    · exact .literal rfl
    · exact legible_grouping (values key listed)

theorem Shows.legible {s : Store σ} {base : Nat} {value : Value} {tree : Branch}
    (shows : Shows s base value tree) : Legible tree := by
  induction shows with
  | constant constant => exact .literal (Value.isLiteral_of_isConstant constant)
  | number same plain finite => exact .literal plain
  | negative same signed plain finite =>
    apply Legible.plain (by decide) rfl
    · constructor <;> simp [lit, Rose.leaf, Rose.value, Node.between?]
    · exact List.forall_mem_singleton.mpr (.literal plain)
  | @object id object tree found above distinct below ih =>
    have values : ∀ key ∈ object.props.map (·.1), Legible (tree key) := by
      intro key member
      obtain ⟨prop, listed, rfl⟩ := List.mem_map.mp member
      exact ih prop listed
    exact legible_objectTree values

theorem Lexed.alone {p : Punctuator} (is : p.isAlone = true) {rest : List Char}
    {lexemes : List Lexeme} (more : Lexed rest lexemes) :
    Lexed (p.text.toList ++ rest) (.punctuator p :: lexemes) :=
  .token (taken_alone is rest) more

/-- The text of pieces is lexed to their tokens if what follows is apart. -/
def LexedApart (pieces : List Piece) : Prop :=
  ∀ {rest : List Char} {lexemes : List Lexeme}, Apart rest → Lexed rest lexemes →
    Lexed (printed pieces ++ rest) (pieces.flatMap Piece.plain ++ lexemes)

theorem lexedApart_token {lexeme : Lexeme}
    (taken : ∀ {rest : List Char}, Apart rest → Taken lexeme lexeme.chars rest) :
    LexedApart [.token lexeme] := by
  intro rest lexemes apart more
  rw [printed_token]
  exact .token (taken apart) more

theorem lexedApart_literal {value : Value} (valid : value.isLiteral = true) :
    LexedApart value.pieces := by
  cases value with
  | undefined => exact lexedApart_token (taken_keyword .undefined)
  | null => exact lexedApart_token (taken_keyword .null)
  | boolean b =>
    cases b with
    | false => exact lexedApart_token (taken_keyword .false)
    | true => exact lexedApart_token (taken_keyword .true)
  | number x => exact lexedApart_token (taken_number valid)
  | string text => exact lexedApart_token fun {rest} _ => taken_string text rest
  | function f | object id => cases valid

theorem lexedApart_negate {y : Float} (plain : Number.isPlain y = true) :
    LexedApart (pieces (op .negate [lit (.number y)])) := by
  intro rest lexemes apart more
  have number := Lexed.token (taken_number plain apart) more
  simp only [Number.isPlain, Bool.and_eq_true, Bool.not_eq_true', bne_iff_ne] at plain
  obtain ⟨decimal, laid, -⟩ := Number.exists_laidOut plain.2 plain.1
  obtain ⟨c, tail, is, first⟩ := laid.exists_cons
  have text : printed (pieces (op .negate [lit (.number y)])) = '-' :: Number.literalChars y :=
    congrArg ('-' :: ·) (printed_token (.number y))
  rw [text]
  rw [is] at number ⊢
  have signed := Lexed.token (taken_minus first (tail ++ rest)) number
  exact signed

theorem lexedApart_entry {key : String} {pieces : List Piece} (value : LexedApart pieces) :
    LexedApart (.key key :: .sign .colon :: pieces) := by
  intro rest lexemes apart more
  have colon := Lexed.alone (p := .colon) rfl (value apart more)
  have text : (Piece.key key).plain.flatMap Lexeme.chars = Text.quotedChars key.toList :=
    List.append_nil _
  rw [printed_cons, printed_cons, text, List.append_assoc]
  exact .token (taken_string key _) colon

theorem lexedApart_separated {list : List (List Piece)}
    (all : ∀ pieces ∈ list, LexedApart pieces) : LexedApart (separated list) := by
  induction list with
  | nil => exact fun _ more => more
  | cons first rest ih =>
    obtain ⟨here, there⟩ := List.forall_mem_cons.mp all
    cases rest with
    | nil => exact here
    | cons second rest =>
      intro behind lexemes apart more
      have comma : Lexed (',' :: _) _ := .alone (p := .comma) rfl (ih there apart more)
      have lexed := here (.cons _ rfl (by decide)) comma
      rw [separated_cons first (by simp), printed_append, printed_cons, List.flatMap_append,
        List.append_assoc, List.append_assoc, List.append_assoc]
      exact lexed

theorem lexedApart_objectTree {keys : List String} {tree : String → Branch}
    (values : ∀ key ∈ keys, LexedApart (tree key).pieces) :
    LexedApart (objectTree keys tree).pieces := by
  have entries : ∀ pieces ∈ keys.map fun key => .key key :: .sign .colon :: (tree key).pieces,
      LexedApart pieces := by
    intro pieces member
    obtain ⟨key, listed, rfl⟩ := List.mem_map.mp member
    exact lexedApart_entry (values key listed)
  intro rest lexemes apart more
  have close := Lexed.alone (p := .closeBrace) rfl more
  have inside := lexedApart_separated entries (.cons _ rfl (by decide)) close
  have whole := Lexed.alone (p := .openBrace) rfl inside
  rw [pieces_objectTree, List.cons_append, printed_cons, printed_append, List.flatMap_cons,
    List.flatMap_append, List.append_assoc, List.append_assoc, List.append_assoc, List.append_assoc]
  exact whole

/-- The text of a value is lexed to the tokens of its tree. -/
theorem Shows.lexedApart {s : Store σ} {base : Nat} {value : Value} {tree : Branch}
    (shows : Shows s base value tree) : LexedApart tree.pieces := by
  induction shows with
  | constant constant => exact lexedApart_literal (Value.isLiteral_of_isConstant constant)
  | @number x y same plain finite => exact @lexedApart_literal (.number y) plain
  | negative same signed plain finite => exact lexedApart_negate plain
  | @object id object tree found above distinct below ih =>
    apply lexedApart_objectTree
    intro key member
    obtain ⟨prop, listed, rfl⟩ := List.mem_map.mp member
    exact ih prop listed

/-- The text of an object parses as the literal of the object. -/
theorem Shows.parse_text {s : Store σ} {base id : Nat} {tree : Branch}
    (shows : Shows s base (.object id) tree) :
    parse ("var r = " ++ s.text (.object id) ++ ";") = .ok (.ofRose (declaration "r" tree)) := by
  have apart (rest : List Char) : Apart (' ' :: rest) := .cons rest rfl (by decide)
  have closed := Lexed.alone (p := .semicolon) rfl .nil
  have value := shows.lexedApart (.cons _ rfl (by decide)) closed
  have assign := Lexed.token (taken_spaced .assign _) (.gap (c := ' ') rfl value)
  have named := Lexed.token (taken_name (by decide : isName "r" = true) (apart _)) (.gap rfl assign)
  have whole := Lexed.token (taken_keyword .var (apart _)) (.gap rfl named)
  have text : ("var r = " ++ s.text (.object id) ++ ";").toList = 'v' :: 'a' :: 'r' :: ' ' :: 'r' ::
      ' ' :: '=' :: ' ' :: (printed tree.pieces ++ [';']) := by
    rw [String.toList_append, String.toList_append, shows.toList_text]
    rfl
  have lexed : Lexed ("var r = " ++ s.text (.object id) ++ ";").toList
      (declarationLexemes "r" tree.print) := by
    rw [text]
    exact whole
  obtain ⟨tokens, results, same⟩ := lexed.lexResults
  exact parse_declaration shows.legible (.plain _) results same

end StepScript
