import StepScript.Proofs.Grammar.Completeness

/-! Printing and parsing.

Every token that a legible tree is printed with has a text, so the printed tree can be
written down, and parsing the text gives the tree back.
-/

set_option autoImplicit false

namespace StepScript

open Branch

/-! ## Printed tokens have texts -/

def Writable (pieces : List Piece) : Prop :=
  ∀ piece ∈ pieces, piece.plain.all Lexeme.isWritable = true

namespace Writable

variable {piece : Piece} {front back pieces : List Piece}

@[simp] theorem nil : Writable [] := by
  intro piece member
  cases member

@[simp] theorem cons_iff : Writable (piece :: pieces) ↔
    piece.plain.all Lexeme.isWritable = true ∧ Writable pieces :=
  List.forall_mem_cons

@[simp] theorem append_iff : Writable (front ++ back) ↔ Writable front ∧ Writable back :=
  List.forall_mem_append

@[simp] theorem sign (p : Punctuator) :
    (Piece.sign p).plain.all Lexeme.isWritable = true := rfl

@[simp] theorem word (k : Keyword) : (Piece.word k).plain.all Lexeme.isWritable = true := rfl

@[simp] theorem noArguments :
    Piece.noArguments.plain.all Lexeme.isWritable = true := rfl

theorem flatMap_plain (writable : Writable pieces) :
    (pieces.flatMap Piece.plain).all Lexeme.isWritable = true := by
  rw [List.all_flatMap, List.all_eq_true]
  exact writable

theorem separated {list : List (List Piece)} (all : ∀ pieces ∈ list, Writable pieces) :
    Writable (separated list) := by
  induction list with
  | nil => exact nil
  | cons first rest ih =>
    obtain ⟨here, there⟩ := List.forall_mem_cons.mp all
    cases rest with
    | nil => exact here
    | cons second rest => exact append_iff.mpr ⟨here, cons_iff.mpr ⟨rfl, ih there⟩⟩

end Writable

theorem writable_signPieces (o : Operation) : Writable o.signPieces := by
  cases o <;> simp [Operation.signPieces, Operation.sign?, Piece.plain, Lexeme.isWritable]

structure Part.Writable (part : Part) : Prop where
  whole : StepScript.Writable part.whole
  inside : StepScript.Writable part.inside
  named : ∀ name, part.node = .use name → isName name = true

namespace Part.Writable

variable {part key value : Part} {parts : List Part}

theorem flatMap_whole (all : ∀ part ∈ parts, part.Writable) :
    StepScript.Writable (parts.flatMap Part.whole) := by
  intro piece member
  obtain ⟨part, listed, inside⟩ := List.mem_flatMap.mp member
  exact (all part listed).whole piece inside

theorem map_whole (all : ∀ part ∈ parts, part.Writable) :
    ∀ pieces ∈ parts.map Part.whole, StepScript.Writable pieces := by
  intro pieces member
  obtain ⟨part, listed, rfl⟩ := List.mem_map.mp member
  exact (all part listed).whole

theorem optional (writable : part.Writable) : StepScript.Writable part.optional := by
  unfold Part.optional
  split
  · exact Writable.cons_iff.mpr ⟨rfl, .nil⟩
  · exact writable.whole

theorem elements (all : ∀ part ∈ parts, part.Writable) :
    StepScript.Writable (Part.elements parts) := by
  unfold Part.elements
  split
  · exact (all _ (by simp)).whole
  · apply Writable.separated
    intro pieces member
    obtain ⟨part, listed, rfl⟩ := List.mem_map.mp member
    exact (all part listed).optional

theorem entry (first : key.Writable) (second : value.Writable) :
    StepScript.Writable (Part.entry key value) := by
  unfold Part.entry
  split
  · exact Writable.cons_iff.mpr ⟨rfl, Writable.cons_iff.mpr ⟨rfl, second.inside⟩⟩
  · next _ _ name _ is =>
    simpa [Piece.plain, Lexeme.isWritable, Piece.name] using second.named name is
  · simpa using ⟨first.inside, second.whole⟩

theorem entries (all : ∀ part ∈ parts, part.Writable) :
    ∀ pieces ∈ Part.entries parts, StepScript.Writable pieces := by
  fun_induction Part.entries parts with
  | case1 key value rest ih =>
    simp only [List.forall_mem_cons] at all ⊢
    exact ⟨entry all.1 all.2.1, ih all.2.2⟩
  | case2 parts short =>
    intro pieces member
    cases member

theorem access (writable : key.Writable) : StepScript.Writable (Part.access key) := by
  unfold Part.access
  split
  · exact Writable.cons_iff.mpr ⟨rfl, .nil⟩
  · simpa using writable.whole

theorem arguments (all : ∀ part ∈ parts, part.Writable) :
    StepScript.Writable (Part.arguments parts) := by
  have inside := Writable.separated (map_whole all)
  simpa [Part.arguments] using inside

theorem operation {o : Operation} (noFunction : o ≠ .functionLiteral)
    (all : ∀ part ∈ parts, part.Writable) : StepScript.Writable (o.pieces parts) := by
  have signs := writable_signPieces o
  -- One case for each form of `Operation.pieces`, in its order.
  unfold Operation.pieces
  split
  · simpa using (all _ (by simp)).whole
  · simpa using Writable.separated (entries all)
  · simpa using elements all
  · exact absurd rfl noFunction
  · exact Writable.append_iff.mpr ⟨(all _ (by simp)).whole, (all _ (by simp)).access⟩
  · simpa using (all _ (by simp)).whole
  · next callee args _ =>
    obtain ⟨first, rest⟩ := List.forall_mem_cons.mp all
    simpa using ⟨first.whole, arguments rest⟩
  · next callee args =>
    obtain ⟨first, rest⟩ := List.forall_mem_cons.mp all
    exact Writable.append_iff.mpr ⟨first.whole, arguments rest⟩
  · next test first second =>
    have here (part : Part) (member : part ∈ [test, first, second]) := (all part member).whole
    simpa using ⟨here test (by simp), here first (by simp), here second (by simp)⟩
  · simpa using (all _ (by simp)).whole
  · simpa using (all _ (by simp)).whole
  · exact Writable.append_iff.mpr ⟨signs, (all _ (by simp)).whole⟩
  · simpa using ⟨(all _ (by simp)).whole, signs, (all _ (by simp)).whole⟩
  · exact .nil

end Part.Writable

theorem writable_literal {value : Value} (valid : value.isLiteral = true) :
    Writable value.pieces := by
  cases value with
  | boolean b => cases b <;> exact Writable.cons_iff.mpr ⟨rfl, .nil⟩
  | number x => simpa [Value.pieces, Piece.plain, Lexeme.isWritable, Value.isLiteral] using valid
  | undefined | null | string _ => exact Writable.cons_iff.mpr ⟨rfl, .nil⟩
  | function _ | object _ => cases valid

theorem Legible.writable_part {tree : Branch} (legible : Legible tree) : (part tree).Writable := by
  induction legible with
  | name valid =>
    constructor
    · exact Writable.cons_iff.mpr ⟨by simpa [Piece.name, Piece.plain, Lexeme.isWritable], .nil⟩
    · exact .nil
    · rintro text ⟨⟩
      exact valid
  | literal valid =>
    constructor
    · exact writable_literal valid
    · exact .nil
    · rintro text ⟨⟩
  | @operation o children noFunction _ _ _ _ _ _ ih =>
    have all : ∀ part ∈ parts children, part.Writable := by
      intro part member
      rw [parts_eq_map] at member
      obtain ⟨child, listed, rfl⟩ := List.mem_map.mp member
      exact ih child listed
    constructor
    · exact Part.Writable.operation noFunction all
    · exact Part.Writable.flatMap_whole all
    · rintro text ⟨⟩

/-- The tokens of a legible tree can be written down. -/
theorem Legible.isWritable_print {tree : Branch} (legible : Legible tree) :
    tree.print.all Lexeme.isWritable = true :=
  legible.writable_part.whole.flatMap_plain

/-! ## Parsing undoes printing -/

/-- Parsing the declaration of a variable with a printed expression gives the tree of the
expression back, whether the tokens are written with spaces between them or stand in a
text of any other form, and whichever of its full spellings the tree is printed in. -/
theorem parse_print {tree : Branch} (legible : Legible tree) :
    parse (spaced (declarationLexemes "r" tree.print)) = .ok (.ofRose (declaration "r" tree)) ∧
      ∀ (source : String) (tokens : List Token) (lexemes : List Lexeme),
        Spells (tree.pieces.flatMap Piece.full) lexemes →
        lexResults source = tokens.map .ok →
        tokens.map (·.lexeme) = declarationLexemes "r" lexemes →
        parse source = .ok (.ofRose (declaration "r" tree)) := by
  constructor
  · have writable : (declarationLexemes "r" tree.print).all Lexeme.isWritable = true := by
      have name : isName "r" = true := by decide
      simp [declarationLexemes, Lexeme.isWritable, legible.isWritable_print, name]
    obtain ⟨tokens, lexed, same⟩ := (lexed_spaced writable).lexResults
    exact parse_declaration legible (.plain _) lexed same
  · intro source tokens lexemes spells lexed same
    exact parse_declaration legible spells lexed same

theorem parse_print_of_product :
    let tree := op .assign [.leaf (.use "x"), op .multiply [op .negate [.leaf (.use "a")],
      op .grouping [op .add [.leaf (.use "b"), lit (.number 2.0)]]]]
    Legible tree ∧
      spaced (declarationLexemes "r" tree.print) = "var r = x = - a * ( b + 2 ) ; " ∧
      parse "var r = x = - a * ( b + 2 ) ; " = .ok (.ofRose (declaration "r" tree)) := by
  intro tree
  have sum : Legible (op .add [.leaf (.use "b"), lit (.number 2.0)]) := by
    apply Legible.plain (by decide) (by decide)
    · constructor <;> decide
    · rw [List.forall_mem_cons, List.forall_mem_singleton]
      exact ⟨.name (by decide), .literal (by decide)⟩
  have group : Legible (op .grouping [op .add [.leaf (.use "b"), lit (.number 2.0)]]) := by
    apply Legible.plain (by decide) (by decide)
    · constructor <;> decide
    · exact List.forall_mem_singleton.mpr sum
  have negated : Legible (op .negate [.leaf (.use "a")]) := by
    apply Legible.plain (by decide) (by decide)
    · constructor <;> decide
    · exact List.forall_mem_singleton.mpr (.name (by decide))
  have legible : Legible tree := by
    apply Legible.plain (by decide) (by decide)
    · constructor <;> decide
    · rw [List.forall_mem_cons, List.forall_mem_singleton]
      refine ⟨.name (by decide), ?_⟩
      apply Legible.plain (by decide) (by decide)
      · constructor <;> decide
      · rw [List.forall_mem_cons, List.forall_mem_singleton]
        exact ⟨negated, group⟩
  have text : spaced (declarationLexemes "r" tree.print) = "var r = x = - a * ( b + 2 ) ; " := by
    decide
  have parsed := (parse_print legible).1
  rw [text] at parsed
  exact ⟨legible, text, parsed⟩

end StepScript
