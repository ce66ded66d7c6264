import StepScript.Proofs.Grammar.Spelling
import StepScript.Proofs.Program.Shape
import StepScript.Proofs.Token.Writing

/-! Legible trees, and goals that are reached.

A tree of an expression is `Legible` if its nodes fit their children and operators
bind as their places ask for. `Covers` says that its pieces are spelled between two
places of the cursor, and `Goal.Leads` that the parser gets from one place to the
other.
-/

set_option autoImplicit false

namespace StepScript

/-! ## Legible trees -/

def Value.isLiteral : Value → Bool
  | number x => Number.isPlain x
  | function _ | object _ => false
  | _ => true

namespace Node

def isPrimary : Node → Bool
  | use _ | literal _ => true
  | operation o => o == .grouping || o == .objectLiteral || o == .arrayLiteral || o == .construct
  | _ => false

def isChain (node : Node) : Bool :=
  node.isPrimary || node.isOperation .member || node.isOperation .call

end Node

inductive Callee : Branch → Prop where
  | primary {tree : Branch} (is : tree.value.isPrimary = true) : Callee tree
  | member {base key : Branch} (callee : Callee base) : Callee (Branch.op .member [base, key])

/-- The tree of an expression, without function literals, whose operands stand
where they can be printed without parentheses of their own. -/
inductive Legible : Branch → Prop where
  | name {text : String} (valid : isName text = true) : Legible (.leaf (.use text))
  | literal {value : Value} (valid : value.isLiteral = true) : Legible (Branch.lit value)
  | operation {o : Operation} {children : List Branch} (noFunction : o ≠ .functionLiteral)
    (noComma : o ≠ .comma) (fits : o.fits (children.map (·.value)) = true)
    (binds : o.Binds (children.map (·.value)))
    (base : o = .member ∨ o = .call → ∀ tree ∈ children.head?, tree.value.isChain = true)
    (callee : o = .construct → ∀ tree ∈ children.head?, Callee tree)
    (below : ∀ child ∈ children, Legible child) : Legible (Branch.op o children)

/-- Operators other than accesses, calls and constructions ask nothing more of their
operands than to fit and to bind. -/
theorem Legible.plain {o : Operation} {children : List Branch}
    (plain : o ∉ [.functionLiteral, .comma, .member, .call, .construct])
    (fits : o.fits (children.map (·.value)) = true) (binds : o.Binds (children.map (·.value)))
    (below : ∀ child ∈ children, Legible child) : Legible (Branch.op o children) := by
  simp only [List.mem_cons, List.not_mem_nil, not_or, or_false] at plain
  obtain ⟨noFunction, noComma, noMember, noCall, noConstruct⟩ := plain
  refine .operation noFunction noComma fits binds ?_ ?_ below
  · rintro (member | call)
    · exact absurd member noMember
    · exact absurd call noCall
  · exact fun construct => absurd construct noConstruct

/-! ## Spelled pieces under the cursor -/

/-- A piece with an empty argument list written out. Left out, it could take the
arguments of a call that follows. -/
def Piece.full : Piece → List Piece
  | noArguments => [sign .openParen, sign .closeParen]
  | piece => [piece]

namespace Spells

variable {front back : List Piece} {lexemes : List Lexeme}

theorem split (spells : Spells (front ++ back) lexemes) :
    ∃ first second, lexemes = first ++ second ∧ Spells front first ∧ Spells back second := by
  induction front generalizing lexemes with
  | nil => exact ⟨[], lexemes, rfl, .nil, spells⟩
  | cons piece front ih =>
    cases spells with
    | cons spelled more =>
      obtain ⟨first, second, rfl, start, rest⟩ := ih more
      exact ⟨_, second, (List.append_assoc _ _ _).symm, .cons spelled start, rest⟩

theorem plain (pieces : List Piece) :
    Spells (pieces.flatMap Piece.full) (pieces.flatMap Piece.plain) := by
  induction pieces with
  | nil => exact .nil
  | cons piece pieces ih =>
    rw [List.flatMap_cons, List.flatMap_cons]
    apply append _ ih
    cases piece with
    | token lexeme => exact one (.token lexeme)
    | key name => exact one (.key rfl)
    | access name => exact one (.bracketed name)
    | gap => exact one .written
    | noArguments => exact sign (sign nil)

end Spells

def Covers (first : Cursor) (pieces : List Piece) (count : Nat) (last : Cursor) : Prop :=
  ∃ lexemes, Spells (pieces.flatMap Piece.full) lexemes ∧ first.Moves lexemes last ∧
    lexemes.length = count

namespace Covers

open Cursor

variable {first last : Cursor} {pieces front back : List Piece} {count : Nat}

theorem nil (covers : Covers first [] count last) : first = last ∧ count = 0 := by
  obtain ⟨lexemes, spells, moves, rfl⟩ := covers
  cases spells
  exact ⟨moves.eq_of_nil, rfl⟩

theorem append (covers : Covers first (front ++ back) count last) :
    ∃ middle i j, Covers first front i middle ∧ Covers middle back j last ∧ count = i + j := by
  obtain ⟨lexemes, spells, moves, rfl⟩ := covers
  rw [List.flatMap_append] at spells
  obtain ⟨start, rest, rfl, spellsFront, spellsBack⟩ := spells.split
  obtain ⟨middle, toMiddle, fromMiddle⟩ := moves.split
  exact ⟨middle, _, _, ⟨start, spellsFront, toMiddle, rfl⟩, ⟨rest, spellsBack, fromMiddle, rfl⟩,
    List.length_append⟩

theorem trans {middle : Cursor} {i j : Nat} (start : Covers first front i middle)
    (rest : Covers middle back j last) : Covers first (front ++ back) (i + j) last := by
  obtain ⟨lexemes, spells, moves, rfl⟩ := start
  obtain ⟨more, spells', moves', rfl⟩ := rest
  refine ⟨lexemes ++ more, ?_, moves.trans moves', List.length_append⟩
  rw [List.flatMap_append]
  exact spells.append spells'

theorem token {lexeme : Lexeme} (covers : Covers first (.token lexeme :: pieces) count last) :
    ∃ middle rest, Step first lexeme middle ∧ Covers middle pieces rest last ∧
      count = rest + 1 := by
  obtain ⟨lexemes, spells, moves, rfl⟩ := covers
  cases spells with
  | cons spelled more =>
    cases spelled
    obtain ⟨middle, step, fromMiddle⟩ := moves.uncons
    exact ⟨middle, _, step, ⟨_, more, fromMiddle, rfl⟩, rfl⟩

theorem sign {p : Punctuator} (covers : Covers first (.sign p :: pieces) count last) :
    ∃ middle rest, Step first (.punctuator p) middle ∧ Covers middle pieces rest last ∧
      count = rest + 1 :=
  token covers

theorem lastSign {p : Punctuator} (covers : Covers first [.sign p] count last) :
    Step first (.punctuator p) last ∧ count = 1 := by
  obtain ⟨middle, rest, step, ended, rfl⟩ := covers.sign
  obtain ⟨rfl, rfl⟩ := ended.nil
  exact ⟨step, rfl⟩

theorem word {k : Keyword} (covers : Covers first (.word k :: pieces) count last) :
    ∃ middle rest, Step first (.keyword k) middle ∧ Covers middle pieces rest last ∧
      count = rest + 1 :=
  token covers

theorem key {name : String} (covers : Covers first (.key name :: pieces) count last) :
    ∃ lexeme middle rest, lexeme.propertyName? = some name ∧ Step first lexeme middle ∧
      Covers middle pieces rest last ∧ count = rest + 1 := by
  obtain ⟨lexemes, spells, moves, rfl⟩ := covers
  cases spells with
  | cons spelled more =>
    cases spelled with
    | key names =>
      obtain ⟨middle, step, fromMiddle⟩ := moves.uncons
      exact ⟨_, middle, _, names, step, ⟨_, more, fromMiddle, rfl⟩, rfl⟩

theorem access {name : String} (covers : Covers first [.access name] count last) :
    (∃ lexeme middle, lexeme.propertyName? = some name ∧ Step first (.punctuator .dot) middle ∧
      Step middle lexeme last ∧ count = 2) ∨
    Covers first [.sign .openBracket, .token (.string name), .sign .closeBracket] count last := by
  obtain ⟨lexemes, spells, moves, rfl⟩ := covers
  cases spells with
  | cons spelled more =>
    cases more
    rw [List.append_nil] at moves ⊢
    cases spelled with
    | dotted names =>
      left
      obtain ⟨middle, dot, rest⟩ := moves.uncons
      obtain ⟨ended, step, rest⟩ := rest.uncons
      cases rest.eq_of_nil
      exact ⟨_, middle, names, dot, step, rfl⟩
    | bracketed =>
      right
      exact ⟨_, .sign (.cons (.token _) (.sign .nil)), moves, rfl⟩

theorem gap (covers : Covers first [.gap] count last) :
    (first = last ∧ count = 0) ∨ Covers first [.word .undefined] count last := by
  obtain ⟨lexemes, spells, moves, rfl⟩ := covers
  cases spells with
  | cons spelled more =>
    cases more
    rw [List.append_nil] at moves ⊢
    cases spelled with
    | written => exact .inr ⟨_, .word .nil, moves, rfl⟩
    | omitted => exact .inl ⟨moves.eq_of_nil, rfl⟩

end Covers

/-! ## Goals that are reached -/

open Cursor Parse Branch

def Lexeme.isCloser : Lexeme → Bool
  | punctuator p => p == .comma || p == .closeParen || p == .closeBracket || p == .closeBrace
  | _ => false

def Lexeme.isSuffix : Lexeme → Bool
  | punctuator p =>
    p == .dot || p == .openBracket || p == .openParen || p == .plusPlus || p == .minusMinus
  | _ => false

/-- With `cost` or more nested goals, the goal gives the tree and gets from the first
place to the second. -/
def Goal.Leads (cost : Nat) (goal : Goal) (first : Cursor) (tree : Branch) (last : Cursor) : Prop :=
  ∀ fuel, cost ≤ fuel → Runs (goal.parse fuel) first tree last

def Reach.Serves (cost : Nat) (reach : Reach) : Prop :=
  ∀ {goal : Goal} {first last : Cursor} {tree : Branch} {less : Nat},
    goal.Leads less first tree last → less ≤ cost → Runs (reach goal) first tree last

theorem Reach.Serves.mono {reach : Reach} {less cost : Nat} (serves : reach.Serves cost)
    (le : less ≤ cost) : reach.Serves less :=
  fun leads enough => serves leads (Nat.le_trans enough le)

namespace Goal.Leads

variable {cost : Nat} {goal : Goal} {first last : Cursor} {tree : Branch}

theorem mono {more : Nat} (leads : goal.Leads cost first tree last) (le : cost ≤ more) :
    goal.Leads more first tree last :=
  fun fuel enough => leads fuel (Nat.le_trans le enough)

theorem of_rule
    (runs : ∀ reach : Reach, reach.Serves cost → Runs (goal.rule reach) first tree last) :
    goal.Leads (cost + 1) first tree last := by
  intro fuel enough
  cases fuel with
  | zero => exact absurd enough (Nat.not_succ_le_zero cost)
  | succ fuel =>
    apply runs
    intro goal first last tree less leads le
    exact leads fuel (Nat.le_trans le (Nat.le_of_succ_le_succ enough))

theorem pos (leads : goal.Leads cost first tree last) : 0 < cost := by
  cases cost with
  | zero => cases leads 0 (Nat.le_refl 0)
  | succ cost => exact Nat.succ_pos cost

theorem before?_eq_none (leads : Goal.primary.Leads cost first tree last) :
    first.hand.before? = none := by
  have run := Runs.peek_iff.mp (leads (cost + 1) (Nat.le_succ cost))
  cases hand : first.hand with
  | keyword k =>
    rw [hand] at run
    cases k <;> first | rfl | cases run
  | punctuator p =>
    rw [hand] at run
    cases p <;> first | rfl | cases run
  | _ => rfl

end Goal.Leads

theorem isCloser_eq_false_of_runs {fuel least : Nat} {first last : Cursor} {tree : Branch}
    (runs : Runs (Goal.parse fuel (.expression least)) first tree last) :
    first.hand.isCloser = false := by
  -- An expression begins with an operand, and that with an operator or a primary expression.
  cases fuel with
  | zero => cases runs
  | succ fuel =>
    obtain ⟨left, middle, operand, -⟩ := Runs.of_bind runs
    cases fuel with
    | zero => cases operand
    | succ fuel =>
      have start := Runs.peek_iff.mp operand
      cases hand : first.hand with
      | punctuator p =>
        rw [hand] at start
        cases closes : Lexeme.isCloser (.punctuator p) with
        | false => rfl
        | true =>
          have none : Lexeme.before? (.punctuator p) = none := by
            cases p <;> first | rfl | cases closes
          rw [none] at start
          obtain ⟨base, between, primary, -⟩ := Runs.of_bind start
          cases fuel with
          | zero => cases primary
          | succ fuel =>
            have failed := Runs.peek_iff.mp primary
            rw [hand] at failed
            cases p <;> first | cases failed | cases closes
      | _ => rfl

theorem hand_ne_of_runs {fuel least : Nat} {first last : Cursor} {tree : Branch}
    {p : Punctuator} (runs : Runs (Goal.parse fuel (.expression least)) first tree last)
    (closer : Lexeme.isCloser (.punctuator p) = true) : first.hand ≠ .punctuator p := by
  intro hand
  have other := isCloser_eq_false_of_runs runs
  rw [hand, closer] at other
  cases other

end StepScript
