import Mathlib
import StepScript.Proofs.Grammar.Assembly
import StepScript.Proofs.Grammar.Shape
import StepScript.Proofs.Grammar.Spelling
import StepScript.Proofs.Program.Layout
import StepScript.Proofs.Token.Lexing

/-! Parsed programs.

The code of a program has the documented shape, and it is what the text says: its
tree, printed in order, spells the tokens of the text, and operators bind as
tightly as their places ask for.
-/

set_option autoImplicit false

namespace StepScript

theorem pieces_unit (trees : List Branch) :
    Branch.pieces (Branch.stmt .unit trees) = trees.flatMap Branch.pieces := by
  rw [Branch.pieces_stmt, ← flatMap_whole]
  rfl

/-- A text that parses has tokens, and the tree printed in order spells them up to
the end: no token is lost, doubled or moved. All operators of the tree bind as their
places ask for. -/
theorem spells_of_parse {source : String} {code : Code} (parsed : parse source = .ok code) :
    ∃ (tokens : List Token) (tree : Branch), tokenize source = .ok tokens ∧ code = .ofRose tree ∧
      Spells (tree.pieces ++ [.token .eof]) (tokens.map (·.lexeme)) ∧ Bound tree := by
  obtain ⟨tree, read, same⟩ := tree_of_parse parsed
  obtain ⟨first, last, fuel, started, run⟩ := run_of_parseTree read
  obtain ⟨moved, moves, bound, ended, statements, isUnit, spells⟩ :=
    faithful_parse fuel (.unit []) first.hand (by simp [Goal.Primed]) first tree last rfl run
  obtain ⟨tokens, lexed, lexemes⟩ := Cursor.tokens_of_moves started
    (fun token member => ne_eof_of_mem_resultsFrom member) moves ended
  refine ⟨_, tree, tokenize_of_results lexed, same, ?_, bound⟩
  have spelled : Spells tree.pieces moved := by
    rw [isUnit, List.reverse_nil, List.nil_append, pieces_unit]
    exact spells
  rw [List.map_append, lexemes]
  exact spelled.append (.one (.token _))

theorem spells_of_parse_of_call :
    let code := Outline.ofRose
      (.node (.statement .unit) [.node (.statement .expression)
        [.node (.operation .subtract)
          [.node (.operation .subtract) [.leaf (.use "a"),
              .node (.operation .construct) [.leaf (.use "B")]],
            .node (.operation .arrayLiteral)
              [.leaf (.literal .undefined), .leaf (.literal .undefined)]]]])
    parse "a - new B - [,];" = .ok code ∧
      ∃ (tokens : List Token) (tree : Branch), tokenize "a - new B - [,];" = .ok tokens ∧
        code = .ofRose tree ∧ Spells (tree.pieces ++ [.token .eof]) (tokens.map (·.lexeme)) ∧
          Bound tree := by
  intro code
  have parsed : parse "a - new B - [,];" = .ok code := by cbv
  exact ⟨parsed, spells_of_parse parsed⟩

end StepScript
