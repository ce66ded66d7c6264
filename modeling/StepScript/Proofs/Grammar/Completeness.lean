import StepScript.Proofs.Grammar.Legible
import StepScript.Proofs.Token.Lexing

/-! Printed expressions are parsed.

From a place where a legible tree is spelled the parser reads just that tree. What
follows decides where it stops, so each statement has a condition on the token
behind the tree, and those on chains of operators and of accesses say what the
parser does from the end of the tree on. Goals nest no deeper than eight times the
number of tokens.
-/

set_option autoImplicit false

namespace StepScript

open Cursor Parse Branch

/-! ## Complete trees -/

def Lexeme.Closes (lexeme : Lexeme) : Prop :=
  lexeme.between? = none ∧ lexeme.isSuffix = false

section

variable (tree : Branch)

def AsPrimary : Prop :=
  ∀ ⦃first last : Cursor⦄ ⦃count : Nat⦄, Covers first tree.pieces count last →
    ∃ cost, cost + 2 ≤ 8 * count ∧ Goal.primary.Leads cost first tree last

/-- What `loop` does from the end of the tree on, the parser does from the tree's
beginning: it reads a primary expression and goes on with the loop. -/
def AsChain (loop : Branch → Goal) : Prop :=
  ∀ ⦃first last ended : Cursor⦄ ⦃result : Branch⦄ ⦃count cost : Nat⦄,
    Covers first tree.pieces count last → (loop tree).Leads cost last result ended →
    ∃ base middle p q, Goal.primary.Leads p first base middle ∧ p + 2 ≤ 8 * count ∧
      (loop base).Leads q middle result ended ∧ q + 8 ≤ cost + 8 * count

def AsOperand : Prop :=
  ∀ ⦃first last : Cursor⦄ ⦃count : Nat⦄, Covers first tree.pieces count last →
    last.hand.isSuffix = false → Goal.operand.Leads (8 * count) first tree last

/-- What the operators behind the tree come to, the expression comes to. -/
def AsExpression : Prop :=
  ∀ ⦃first last ended : Cursor⦄ ⦃result : Branch⦄ ⦃count cost least : Nat⦄,
    Covers first tree.pieces count last → last.hand.isSuffix = false → Strong least tree →
    (∀ o ∈ tree.value.between?, last.hand.Stops o.rightPrecedence) →
    (Goal.operators least tree).Leads cost last result ended →
    (Goal.expression least).Leads (cost + 8 * count) first result ended

def AsInside : Prop :=
  ∀ ⦃first last : Cursor⦄ ⦃count : Nat⦄, Covers first (part tree).inside count last →
    last.hand.Closes → ∃ inner, tree = op .grouping [inner] ∧
      (Goal.expression 0).Leads (8 * count + 1) first inner last

/-- Wherever the tree is spelled, the parser reads it. -/
structure Complete : Prop where
  chain : tree.value.isChain = true → AsChain tree .suffixes
  callee : Callee tree → AsChain tree .callee
  operand : tree.value.between? = none → AsOperand tree
  expression : AsExpression tree
  inside : tree.value = .operation .grouping → AsInside tree

end

section

variable {first middle last ended : Cursor} {tree base result : Branch} {count cost least : Nat}

theorem leads_operators_stop (stops : first.hand.Stops least) :
    (Goal.operators least tree).Leads 1 first tree first := by
  apply Goal.Leads.of_rule
  intro reach serves
  apply Runs.peek
  cases found : first.hand.between? with
  | none => exact .pure tree first
  | some o =>
    simp only [if_pos (stops o found)]
    exact .pure tree first

theorem leads_suffixes_stop (plain : first.hand.isSuffix = false) :
    (Goal.suffixes tree).Leads 1 first tree first := by
  apply Goal.Leads.of_rule
  intro reach serves
  apply Runs.peek
  cases hand : first.hand with
  | punctuator p =>
    rw [hand] at plain
    cases p <;> first | exact .pure tree first | cases plain
  | _ => exact .pure tree first

theorem leads_callee_stop (hand : first.hand = .punctuator .openParen) :
    (Goal.callee tree).Leads 1 first tree first := by
  apply Goal.Leads.of_rule
  intro reach serves
  apply Runs.not_at? (by simp [hand])
  apply Runs.not_at? (by simp [hand])
  exact .pure tree first

theorem Complete.closed (complete : Complete tree) (covers : Covers first tree.pieces count last)
    (closes : last.hand.Closes) : (Goal.expression 0).Leads (8 * count + 1) first tree last := by
  have stops (least : Nat) : last.hand.Stops least := by simp [Lexeme.Stops, closes.1]
  have leads := complete.expression covers closes.2 (fun _ _ => Nat.zero_le _)
    (fun o _ => stops _) (leads_operators_stop (stops 0))
  exact leads.mono (by omega)

/-! From the tightest part of an expression to the loosest. -/

theorem AsPrimary.chain (primary : AsPrimary tree) (loop : Branch → Goal) : AsChain tree loop := by
  intro first last ended result count cost covers leads
  obtain ⟨p, small, start⟩ := primary covers
  exact ⟨tree, last, p, cost, start, small, leads, by omega⟩

theorem leads_operand_of_primary {p q : Nat} (start : Goal.primary.Leads p first base middle)
    (rest : (Goal.suffixes base).Leads q middle tree last) :
    Goal.operand.Leads (max p q + 1) first tree last := by
  apply Goal.Leads.of_rule
  intro reach serves
  apply Runs.peek
  rw [start.before?_eq_none]
  exact .bind (serves start (Nat.le_max_left p q)) (serves rest (Nat.le_max_right p q))

theorem AsChain.operand (chain : AsChain tree .suffixes) : AsOperand tree := by
  intro first last count covers plain
  obtain ⟨base, middle, p, q, start, small, rest, less⟩ := chain covers (leads_suffixes_stop plain)
  exact (leads_operand_of_primary start rest).mono (by omega)

theorem AsOperand.expression (operand : AsOperand tree) : AsExpression tree := by
  intro first last ended result count cost least covers plain _ _ rest
  have start := operand covers plain
  have some := start.pos
  have more := rest.pos
  have leads : (Goal.expression least).Leads (max (8 * count) cost + 1) first result ended := by
    apply Goal.Leads.of_rule
    intro reach serves
    exact .bind (serves start (Nat.le_max_left _ _)) (serves rest (Nat.le_max_right _ _))
  exact leads.mono (by omega)

end

namespace Complete

variable {tree : Branch}

theorem of_primary (primary : AsPrimary tree)
    (inside : tree.value = .operation .grouping → AsInside tree) : Complete tree where
  chain _ := primary.chain _
  callee _ := primary.chain _
  operand _ := (primary.chain _).operand
  expression := (primary.chain _).operand.expression
  inside := inside

theorem of_leaf {value : Node} (lexeme : Lexeme)
    (spelled : pieces (.leaf value) = [.token lexeme])
    (noGrouping : value ≠ .operation .grouping)
    (runs : ∀ (reach : Reach) {first last : Cursor}, Step first lexeme last →
      Runs (primaryRule reach) first (.leaf value) last) : Complete (.leaf value) := by
  have primary : AsPrimary (.leaf value) := by
    intro first last count covers
    rw [spelled] at covers
    obtain ⟨middle, rest, step, ended, rfl⟩ := covers.token
    obtain ⟨rfl, rfl⟩ := ended.nil
    have leads : Goal.primary.Leads (0 + 1) first (.leaf value) middle :=
      .of_rule fun reach _ => runs reach step
    exact ⟨1, by omega, leads⟩
  exact .of_primary primary fun is => absurd is noGrouping

theorem use (text : String) : Complete (.leaf (.use text)) := by
  apply of_leaf (.identifier text) rfl (by simp)
  intro reach first last step
  apply Runs.peek
  rw [step.hand]
  exact .expectIdentifier step (.pure _ last)

theorem literal {value : Value} (valid : value.isLiteral = true) : Complete (lit value) := by
  have read {first last : Cursor} {lexeme : Lexeme} (step : Step first lexeme last) :
      Runs (literalRule value) first (lit value) last :=
    Runs.advance step (.pure _ last)
  cases value with
  | function f => cases valid
  | object id => cases valid
  | boolean b =>
    cases b
    all_goals
      apply of_leaf _ rfl (by simp)
      intro reach first last step
      apply Runs.peek
      rw [step.hand]
      exact read step
  | _ =>
    apply of_leaf _ rfl (by simp)
    intro reach first last step
    apply Runs.peek
    rw [step.hand]
    exact read step

end Complete

/-! ## Lists in brackets -/

theorem closes_comma : Lexeme.Closes (.punctuator .comma) := ⟨rfl, rfl⟩
theorem closes_paren : Lexeme.Closes (.punctuator .closeParen) := ⟨rfl, rfl⟩
theorem closes_bracket : Lexeme.Closes (.punctuator .closeBracket) := ⟨rfl, rfl⟩
theorem closes_brace : Lexeme.Closes (.punctuator .closeBrace) := ⟨rfl, rfl⟩
theorem closes_colon : Lexeme.Closes (.punctuator .colon) := ⟨rfl, rfl⟩

/-- Lists are read item by item. Behind an item stands a comma and more of the list, or
the token that closes the list. -/
def listRule {α : Type} (item : Parse α) (closer : Punctuator) (more : α → Parse Branch)
    (whole : α → Branch) : Parse Branch := do
  let x ← item
  if ← eat .comma then
    more x
  else
    expect closer
    return whole x

theorem rule_arguments (o : Operation) (done : List Branch) (reach : Reach) :
    (Goal.arguments o done).rule reach = listRule (anyExpression reach) .closeParen
      (fun argument => reach (.arguments o (argument :: done)))
      (fun argument => op o (argument :: done).reverse) :=
  rfl

theorem rule_entries (done : List Branch) (reach : Reach) :
    (Goal.entries done).rule reach = listRule (objectEntry reach) .closeBrace
      (fun entry => reach (.entries (entry.2 :: entry.1 :: done)))
      (fun entry => op .objectLiteral (entry.2 :: entry.1 :: done).reverse) :=
  rfl

theorem rule_elements (done : List Branch) (reach : Reach) :
    (Goal.elements done).rule reach = listRule (arrayElement reach) .closeBracket
      (fun element => reach (.elements (element :: done)))
      (fun element => op .arrayLiteral (element :: done).reverse) :=
  rfl

section

variable {α : Type} {goal : Goal} {item : Reach → Parse α} {closer : Punctuator}
  {next : α → Goal} {whole : α → Branch} {first middle behind last : Cursor} {x : α}
  {tree : Branch} {cost more : Nat}

theorem leads_lastItem
    (rule : ∀ reach, goal.rule reach =
      listRule (item reach) closer (fun x => reach (next x)) whole)
    (noComma : closer ≠ .comma)
    (runs : ∀ reach : Reach, reach.Serves cost → Runs (item reach) first x middle)
    (step : Step middle (.punctuator closer) last) :
    goal.Leads (cost + 1) first (whole x) last := by
  apply Goal.Leads.of_rule
  intro reach serves
  rw [rule]
  apply Runs.bind (runs reach serves)
  apply Runs.not_eat (by simpa [step.hand] using noComma)
  exact Runs.expect step (.pure _ last)

theorem leads_moreItems
    (rule : ∀ reach, goal.rule reach =
      listRule (item reach) closer (fun x => reach (next x)) whole)
    (runs : ∀ reach : Reach, reach.Serves cost → Runs (item reach) first x middle)
    (step : Step middle (.punctuator .comma) behind)
    (rest : (next x).Leads more behind tree last) :
    goal.Leads (max cost more + 1) first tree last := by
  apply Goal.Leads.of_rule
  intro reach serves
  rw [rule]
  apply Runs.bind (runs reach (serves.mono (Nat.le_max_left _ _)))
  apply Runs.eat step
  exact serves rest (Nat.le_max_right _ _)

end

section

variable {first last : Cursor} {count : Nat}

theorem leads_arguments {o : Operation} {args : List Branch}
    (complete : ∀ tree ∈ args, Complete tree) (done : List Branch) (some : args ≠ [])
    (covers : Covers first (separated (args.map pieces) ++ [.sign .closeParen]) count last) :
    (Goal.arguments o done).Leads (8 * count) first (op o (done.reverse ++ args)) last := by
  -- By induction on the arguments; `done` holds those before, the last first.
  induction args generalizing done first count with
  | nil => exact absurd rfl some
  | cons argument rest ih =>
    have own := complete argument (by simp)
    cases rest with
    | nil =>
      obtain ⟨middle, i, j, covered, ended, rfl⟩ := covers.append
      obtain ⟨step, rfl⟩ := ended.lastSign
      have leads := own.closed covered (step.hand ▸ closes_paren)
      have whole := leads_lastItem (rule_arguments o done) (by decide)
        (fun _ serves => serves leads (Nat.le_refl _)) step
      simpa using whole.mono (by omega : _ ≤ 8 * (i + 1))
    | cons second rest =>
      rw [List.map_cons, separated_cons _ (by simp), List.append_assoc] at covers
      obtain ⟨middle, i, j, covered, more, rfl⟩ := covers.append
      obtain ⟨next, k, step, others, rfl⟩ := more.sign
      have leads := own.closed covered (step.hand ▸ closes_comma)
      have remaining := ih (fun tree member => complete tree (by simp [member])) (argument :: done)
        (by simp) others
      have whole := leads_moreItems (rule_arguments o done)
        (fun _ serves => serves leads (Nat.le_refl _)) step remaining
      simpa using whole.mono (by omega : _ ≤ 8 * (i + (k + 1)))

theorem runs_argumentList {o : Operation} {args : List Branch}
    (complete : ∀ tree ∈ args, Complete tree) (done : List Branch) {cost : Nat} {reach : Reach}
    (serves : reach.Serves cost) (enough : 8 * count ≤ cost)
    (covers : Covers first (separated (args.map pieces) ++ [.sign .closeParen]) count last) :
    Runs (argumentList reach o done) first (op o (done.reverse ++ args)) last := by
  cases args with
  | nil =>
    obtain ⟨step, -⟩ := covers.lastSign
    apply Runs.eat step
    simpa using Runs.pure (op o done.reverse) last
  | cons argument rest =>
    have leads := leads_arguments (o := o) complete done (by simp) covers
    obtain ⟨tree, middle, start, -⟩ := Runs.of_bind (leads (8 * count + 1) (Nat.le_succ _))
    apply Runs.not_eat (hand_ne_of_runs start rfl)
    exact serves leads enough

/-! Object literals. -/

theorem runs_expectPropertyName {lexeme : Lexeme} {name : String}
    (names : lexeme.propertyName? = some name) (step : Step first lexeme last) :
    Runs expectPropertyName first name last := by
  apply Runs.peek
  rw [step.hand]
  cases lexeme with
  | punctuator p => cases names
  | eof => cases names
  | _ =>
    cases names
    exact Runs.bind (.pure _ first) (.advance step (.pure _ last))

theorem Legible.eq_lit {tree : Branch} {value : Value} (legible : Legible tree)
    (is : tree.value = .literal value) : tree = lit value := by
  cases legible with
  | literal valid =>
    cases is
    rfl
  | _ => cases is

theorem Legible.eq_use {tree : Branch} {name : String} (legible : Legible tree)
    (is : tree.value = .use name) : tree = .leaf (.use name) := by
  cases legible with
  | name valid =>
    cases is
    rfl
  | _ => cases is

/-- The pieces of one entry, by the three forms that fit. -/
theorem entry_cases {key value : Branch} (legibleKey : Legible key) (legibleValue : Legible value)
    (fits : Operation.entryFits key.value value.value = true) :
    (key.value = .operation .grouping ∧ Part.entry (part key) (part value) =
      .sign .openBracket ::
        ((part key).inside ++ .sign .closeBracket :: .sign .colon :: value.pieces)) ∨
    (∃ name, key = lit (.string name) ∧ value.value = .operation .grouping ∧
      Part.entry (part key) (part value) = .key name :: .sign .colon :: (part value).inside) ∨
    ∃ name, key = lit (.string name) ∧ value = .leaf (.use name) ∧
      Part.entry (part key) (part value) = [.name name] := by
  unfold Operation.entryFits at fits
  split at fits
  · next k is =>
    left
    obtain ⟨_, _⟩ := key
    cases is
    exact ⟨rfl, by simp [Part.entry, part]⟩
  · next isKey isValue =>
    right; left
    cases legibleKey.eq_lit isKey
    obtain ⟨_, _⟩ := value
    cases isValue
    exact ⟨_, rfl, rfl, rfl⟩
  · next name other isKey isValue =>
    right; right
    cases legibleKey.eq_lit isKey
    cases legibleValue.eq_use isValue
    cases eq_of_beq fits
    exact ⟨_, rfl, rfl, rfl⟩
  · cases fits

theorem runs_objectEntry {key value : Branch} (legibleKey : Legible key)
    (legibleValue : Legible value) (completeKey : Complete key) (completeValue : Complete value)
    (fits : Operation.entryFits key.value value.value = true) {cost : Nat} {reach : Reach}
    (serves : reach.Serves cost) (enough : 8 * count ≤ cost)
    (covers : Covers first (Part.entry (part key) (part value)) count last)
    (closes : last.hand.Closes) (noColon : last.hand ≠ .punctuator .colon) :
    Runs (objectEntry reach) first (key, value) last := by
  rcases entry_cases legibleKey legibleValue fits with ⟨grouped, printed⟩ |
    ⟨name, rfl, grouped, printed⟩ | ⟨name, rfl, rfl, printed⟩
  -- A computed key, `[key]: value`.
  · rw [printed] at covers
    obtain ⟨opened, rest, bracket, more, rfl⟩ := covers.sign
    obtain ⟨closed, i, j, inner, behind, rfl⟩ := more.append
    obtain ⟨colon, k, step, behind', rfl⟩ := behind.sign
    obtain ⟨start, l, step', covered, rfl⟩ := behind'.sign
    obtain ⟨computed, rfl, leads⟩ := completeKey.inside grouped inner (step.hand ▸ closes_bracket)
    have leads' := completeValue.closed covered closes
    apply Runs.eat bracket
    apply Runs.bind (serves leads (by omega))
    apply Runs.expect step
    apply Runs.expect step'
    exact Runs.bind (serves leads' (by omega)) (.pure _ last)
  -- A name or a literal as the key, `name: value`.
  · rw [printed] at covers
    obtain ⟨lexeme, middle, rest, names, step, more, rfl⟩ := covers.key
    obtain ⟨start, i, colon, inner, rfl⟩ := more.sign
    obtain ⟨computed, rfl, leads⟩ := completeValue.inside grouped inner closes
    have noBracket : first.hand ≠ .punctuator .openBracket := by
      rw [step.hand]
      rintro rfl
      cases names
    apply Runs.not_eat noBracket
    apply Runs.peek
    apply Runs.bind (runs_expectPropertyName names step)
    apply Runs.eat colon
    exact Runs.bind (serves leads (by omega)) (.pure _ last)
  -- A variable that names its own property. A colon behind it would make it a key.
  · rw [printed] at covers
    obtain ⟨middle, rest, step, ended, rfl⟩ := covers.token
    obtain ⟨rfl, rfl⟩ := ended.nil
    apply Runs.not_eat (by simp [step.hand])
    apply Runs.peek
    apply Runs.bind (runs_expectPropertyName rfl step)
    apply Runs.not_eat noColon
    rw [step.hand]
    exact .pure _ middle

theorem entries_ne_nil {trees : List Branch} (some : trees ≠ [])
    (fits : Operation.entriesFit (trees.map (·.value)) = true) :
    Part.entries (trees.map part) ≠ [] := by
  match trees with
  | [] => exact absurd rfl some
  | [_] => cases fits
  | _ :: _ :: _ => simp [Part.entries]

theorem hand_ne_of_entry {key value : Branch} (legibleKey : Legible key)
    (legibleValue : Legible value) (fits : Operation.entryFits key.value value.value = true)
    {more : List Piece}
    (covers : Covers first (Part.entry (part key) (part value) ++ more) count last) :
    first.hand ≠ .punctuator .closeBrace := by
  rcases entry_cases legibleKey legibleValue fits with ⟨-, printed⟩ | ⟨name, -, -, printed⟩ |
    ⟨name, -, -, printed⟩
  · rw [printed] at covers
    obtain ⟨middle, rest, step, -, -⟩ := Covers.sign covers
    simp [step.hand]
  · rw [printed] at covers
    obtain ⟨lexeme, middle, rest, names, step, -, -⟩ := Covers.key covers
    rw [step.hand]
    rintro rfl
    cases names
  · rw [printed] at covers
    obtain ⟨middle, rest, step, -, -⟩ := Covers.token covers
    simp [step.hand]

theorem hand_ne_of_entries {trees : List Branch} (legible : ∀ tree ∈ trees, Legible tree)
    (some : trees ≠ []) (fits : Operation.entriesFit (trees.map (·.value)) = true)
    (covers : Covers first (separated (Part.entries (trees.map part)) ++ [.sign .closeBrace]) count
      last) : first.hand ≠ .punctuator .closeBrace := by
  match trees with
  | [] => exact absurd rfl some
  | [_] => cases fits
  | key :: value :: rest =>
    simp only [List.map_cons, Operation.entriesFit, Bool.and_eq_true] at fits
    have apart : ∃ more, separated (Part.entries ((key :: value :: rest).map part)) =
        Part.entry (part key) (part value) ++ more := by
      by_cases only : rest = []
      · exact ⟨[], by simp [only, Part.entries, separated]⟩
      · rw [List.map_cons, List.map_cons, Part.entries,
          separated_cons _ (entries_ne_nil only fits.2)]
        exact ⟨_, rfl⟩
    obtain ⟨more, same⟩ := apart
    rw [same, List.append_assoc] at covers
    exact hand_ne_of_entry (legible key (by simp)) (legible value (by simp)) fits.1 covers

theorem leads_entries {trees : List Branch} (legible : ∀ tree ∈ trees, Legible tree)
    (complete : ∀ tree ∈ trees, Complete tree) (done : List Branch) (some : trees ≠ [])
    (fits : Operation.entriesFit (trees.map (·.value)) = true)
    (covers : Covers first (separated (Part.entries (trees.map part)) ++ [.sign .closeBrace]) count
      last) :
    (Goal.entries done).Leads (8 * count) first (op .objectLiteral (done.reverse ++ trees))
      last := by
  -- By induction on the entries, two trees at a time; `done` holds those before, the last first.
  induction trees using List.twoStepInduction generalizing done first count with
  | nil => exact absurd rfl some
  | singleton _ => cases fits
  | cons_cons key value rest ih _ =>
    simp only [List.map_cons, Operation.entriesFit, Bool.and_eq_true] at fits
    have entry {middle : Cursor} {i : Nat}
        (covered : Covers first (Part.entry (part key) (part value)) i middle)
        (closes : middle.hand.Closes) (noColon : middle.hand ≠ .punctuator .colon)
        (reach : Reach) (serves : reach.Serves (8 * i)) :
        Runs (objectEntry reach) first (key, value) middle :=
      runs_objectEntry (legible key (by simp)) (legible value (by simp)) (complete key (by simp))
        (complete value (by simp)) fits.1 serves (Nat.le_refl _) covered closes noColon
    by_cases only : rest = []
    · subst only
      obtain ⟨middle, i, j, covered, ended, rfl⟩ := covers.append
      obtain ⟨step, rfl⟩ := ended.lastSign
      have own := entry covered (step.hand ▸ closes_brace) (by simp [step.hand])
      have whole := leads_lastItem (rule_entries done) (by decide) own step
      simpa using whole.mono (by omega : _ ≤ 8 * (i + 1))
    · rw [List.map_cons, List.map_cons, Part.entries,
        separated_cons _ (entries_ne_nil only fits.2), List.append_assoc] at covers
      obtain ⟨middle, i, j, covered, more, rfl⟩ := covers.append
      obtain ⟨next, k, step, others, rfl⟩ := more.sign
      have remaining := ih (fun tree member => legible tree (by simp [member]))
        (fun tree member => complete tree (by simp [member])) (value :: key :: done) only fits.2
        others
      have own := entry covered (step.hand ▸ closes_comma) (by simp [step.hand])
      have whole := leads_moreItems (rule_entries done) own step remaining
      simpa using whole.mono (by omega : _ ≤ 8 * (i + (k + 1)))

end

section

variable {first last : Cursor} {count : Nat}

/-! Array literals. -/

theorem Covers.optional {tree : Branch} (legible : Legible tree)
    (covers : Covers first (part tree).optional count last) :
    (tree = lit .undefined ∧ first = last ∧ count = 0) ∨ Covers first tree.pieces count last := by
  by_cases hole : tree.value = .literal .undefined
  · cases legible.eq_lit hole
    rcases covers.gap with ⟨same, none⟩ | written
    · exact .inl ⟨rfl, same, none⟩
    · exact .inr written
  · rw [optional_eq_pieces hole] at covers
    exact .inr covers

theorem Covers.of_pieces {tree : Branch} (legible : Legible tree)
    (covers : Covers first tree.pieces count last) :
    Covers first (part tree).optional count last := by
  by_cases hole : tree.value = .literal .undefined
  · cases legible.eq_lit hole
    obtain ⟨lexemes, spells, moves, same⟩ := covers
    exact ⟨lexemes, @spells_optional (lit .undefined) lexemes spells, moves, same⟩
  · rw [optional_eq_pieces hole]
    exact covers

theorem runs_arrayElement {tree : Branch} (legible : Legible tree) (complete : Complete tree)
    {cost : Nat} {reach : Reach} (serves : reach.Serves cost) (enough : 8 * count + 1 ≤ cost)
    (covers : Covers first (part tree).optional count last)
    (hand : last.hand = .punctuator .comma ∨ last.hand = .punctuator .closeBracket) :
    Runs (arrayElement reach) first tree last := by
  rcases covers.optional legible with ⟨rfl, rfl, rfl⟩ | covered
  · rcases hand with comma | bracket
    · apply Runs.at? comma
      by_cases bracket : first.hand = .punctuator .closeBracket
      · exact Runs.at? bracket (.pure _ first)
      · exact Runs.not_at? bracket (.pure _ first)
    · apply Runs.not_at? (by simp [bracket])
      exact Runs.at? bracket (.pure _ first)
  · have closes : last.hand.Closes := by
      rcases hand with hand | hand
      · exact hand ▸ closes_comma
      · exact hand ▸ closes_bracket
    have leads := complete.closed covered closes
    have start := leads _ (Nat.le_refl _)
    apply Runs.not_at? (hand_ne_of_runs start rfl)
    apply Runs.not_at? (hand_ne_of_runs start rfl)
    exact serves leads enough

theorem leads_elements {trees : List Branch} (legible : ∀ tree ∈ trees, Legible tree)
    (complete : ∀ tree ∈ trees, Complete tree) (done : List Branch) (some : trees ≠ [])
    (covers : Covers first (separated (trees.map (part · |>.optional)) ++ [.sign .closeBracket])
      count last) :
    (Goal.elements done).Leads (8 * count) first (op .arrayLiteral (done.reverse ++ trees))
      last := by
  -- By induction on the elements; `done` holds those before, the last first.
  induction trees generalizing done first count with
  | nil => exact absurd rfl some
  | cons element rest ih =>
    have own := legible element (by simp)
    have ownComplete := complete element (by simp)
    by_cases only : rest = []
    · subst only
      obtain ⟨middle, i, j, covered, ended, rfl⟩ := covers.append
      obtain ⟨step, rfl⟩ := ended.lastSign
      have whole := leads_lastItem (rule_elements done) (by decide)
        (fun _ serves => runs_arrayElement own ownComplete serves (Nat.le_refl _) covered
          (.inr step.hand)) step
      simpa using whole.mono (by omega : _ ≤ 8 * (i + 1))
    · rw [List.map_cons, separated_cons _ (by simpa using only), List.append_assoc] at covers
      obtain ⟨middle, i, j, covered, more, rfl⟩ := covers.append
      obtain ⟨next, k, step, others, rfl⟩ := more.sign
      have remaining := ih (fun tree member => legible tree (by simp [member]))
        (fun tree member => complete tree (by simp [member])) (element :: done) only others
      have whole := leads_moreItems (rule_elements done)
        (fun _ serves => runs_arrayElement own ownComplete serves (Nat.le_refl _) covered
          (.inl step.hand)) step remaining
      simpa using whole.mono (by omega : _ ≤ 8 * (i + (k + 1)))

/-- Behind the opening bracket of an array, an only element is spelled as if it could
be left out, and the list does not end at once. -/
theorem covers_elements {trees : List Branch} (legible : ∀ tree ∈ trees, Legible tree)
    (complete : ∀ tree ∈ trees, Complete tree) (some : trees ≠ [])
    (covers : Covers first (Part.elements (trees.map part) ++ [.sign .closeBracket]) count last) :
    Covers first (separated (trees.map (part · |>.optional)) ++ [.sign .closeBracket]) count last ∧
      first.hand ≠ .punctuator .closeBracket := by
  match trees with
  | [] => exact absurd rfl some
  | [only] =>
    obtain ⟨middle, i, j, covered, ended, rfl⟩ := covers.append
    obtain ⟨step, -⟩ := ended.lastSign
    have leads := (complete only (by simp)).closed covered (step.hand ▸ closes_bracket)
    constructor
    · exact (Covers.of_pieces (legible only (by simp)) covered).trans ended
    · exact hand_ne_of_runs (leads _ (Nat.le_refl _)) rfl
  | head :: second :: rest =>
    have printed : Part.elements ((head :: second :: rest).map part) =
        separated ((head :: second :: rest).map (part · |>.optional)) := by
      simp [Part.elements, Function.comp_def]
    rw [printed] at covers
    refine ⟨covers, ?_⟩
    rw [List.map_cons, separated_cons _ (by simp), List.append_assoc] at covers
    obtain ⟨middle, i, j, covered, more, -⟩ := covers.append
    obtain ⟨next, k, step, -, -⟩ := more.sign
    rcases covered.optional (legible head (by simp)) with ⟨-, rfl, -⟩ | covered
    · simp [step.hand]
    · have leads := (complete head (by simp)).closed covered (step.hand ▸ closes_comma)
      exact hand_ne_of_runs (leads _ (Nat.le_refl _)) rfl

end

/-! ## Operations -/

namespace Complete

theorem grouping {inner : Branch} (complete : Complete inner) :
    Complete (op .grouping [inner]) := by
  apply of_primary
  · intro first last count covers
    have printed : pieces (op .grouping [inner]) =
        .sign .openParen :: (inner.pieces ++ [.sign .closeParen]) := rfl
    rw [printed] at covers
    obtain ⟨opened, rest, paren, more, rfl⟩ := covers.sign
    obtain ⟨middle, i, j, covered, ended, rfl⟩ := more.append
    obtain ⟨step, rfl⟩ := ended.lastSign
    have leads := complete.closed covered (step.hand ▸ closes_paren)
    refine ⟨8 * i + 1 + 1, by omega, ?_⟩
    apply Goal.Leads.of_rule
    intro reach serves
    apply Runs.peek
    rw [paren.hand]
    apply Runs.expect paren
    apply Runs.bind (serves leads (Nat.le_refl _))
    exact Runs.expect step (.pure _ last)
  · intro _ first last count covers closes
    have inside : (part (op .grouping [inner])).inside = inner.pieces := by
      simp [op, part, parts]
    rw [inside] at covers
    exact ⟨inner, rfl, complete.closed covers closes⟩

theorem objectLiteral {trees : List Branch} (legible : ∀ tree ∈ trees, Legible tree)
    (complete : ∀ tree ∈ trees, Complete tree)
    (fits : Operation.entriesFit (trees.map (·.value)) = true) :
    Complete (op .objectLiteral trees) := by
  apply of_primary _ fun is => by cases is
  intro first last count covers
  have printed : pieces (op .objectLiteral trees) =
      .sign .openBrace :: (separated (Part.entries (trees.map part)) ++ [.sign .closeBrace]) := by
    rw [pieces_op]
    rfl
  rw [printed] at covers
  obtain ⟨opened, rest, brace, more, rfl⟩ := covers.sign
  refine ⟨8 * rest + 1, by omega, ?_⟩
  apply Goal.Leads.of_rule
  intro reach serves
  apply Runs.peek
  rw [brace.hand]
  apply Runs.expect brace
  by_cases empty : trees = []
  · subst empty
    obtain ⟨step, -⟩ := Covers.lastSign more
    exact Runs.eat step (.pure _ last)
  · have leads := leads_entries legible complete [] empty fits more
    apply Runs.not_eat (hand_ne_of_entries legible empty fits more)
    exact serves leads (Nat.le_refl _)

theorem arrayLiteral {trees : List Branch} (legible : ∀ tree ∈ trees, Legible tree)
    (complete : ∀ tree ∈ trees, Complete tree) : Complete (op .arrayLiteral trees) := by
  apply of_primary _ fun is => by cases is
  intro first last count covers
  have printed : pieces (op .arrayLiteral trees) =
      .sign .openBracket :: (Part.elements (trees.map part) ++ [.sign .closeBracket]) := by
    rw [pieces_op]
    rfl
  rw [printed] at covers
  obtain ⟨opened, rest, bracket, more, rfl⟩ := covers.sign
  refine ⟨8 * rest + 1, by omega, ?_⟩
  apply Goal.Leads.of_rule
  intro reach serves
  apply Runs.peek
  rw [bracket.hand]
  apply Runs.expect bracket
  by_cases empty : trees = []
  · subst empty
    obtain ⟨step, -⟩ := Covers.lastSign more
    exact Runs.eat step (.pure _ last)
  · obtain ⟨covered, inside⟩ := covers_elements legible complete empty more
    apply Runs.not_eat inside
    exact serves (leads_elements legible complete [] empty covered) (Nat.le_refl _)

end Complete

section

variable {first middle last ended : Cursor} {base key result : Branch} {count cost : Nat}

theorem Covers.member (legible : Legible key) (covers : Covers first (part key).access count last) :
    (∃ name lexeme middle, key = lit (.string name) ∧ lexeme.propertyName? = some name ∧
      Step first (.punctuator .dot) middle ∧ Step middle lexeme last ∧ count = 2) ∨
    ∃ opened middle inner, Step first (.punctuator .openBracket) opened ∧
      Covers opened key.pieces inner middle ∧ Step middle (.punctuator .closeBracket) last ∧
      count = inner + 2 := by
  have bracketed (pieces : List Piece)
      (covers : Covers first (.sign .openBracket :: (pieces ++ [.sign .closeBracket])) count last) :
      ∃ opened middle inner, Step first (.punctuator .openBracket) opened ∧
        Covers opened pieces inner middle ∧ Step middle (.punctuator .closeBracket) last ∧
        count = inner + 2 := by
    obtain ⟨opened, rest, step, more, rfl⟩ := covers.sign
    obtain ⟨middle, i, j, covered, final, rfl⟩ := more.append
    obtain ⟨step', rfl⟩ := final.lastSign
    exact ⟨opened, middle, i, step, covered, step', rfl⟩
  by_cases named : ∃ name, key.value = .literal (.string name)
  · obtain ⟨name, is⟩ := named
    cases legible.eq_lit is
    rcases covers.access with ⟨lexeme, middle, names, dot, step, rfl⟩ | covered
    · exact .inl ⟨name, lexeme, middle, rfl, names, dot, step, rfl⟩
    · exact .inr (bracketed [.token (.string name)] covered)
  · have printed : (part key).access =
        .sign .openBracket :: (key.pieces ++ [.sign .closeBracket]) := by
      obtain ⟨value, children⟩ := key
      unfold Part.access
      split
      · next name is => exact absurd ⟨name, is⟩ named
      · rfl
    rw [printed] at covers
    exact .inr (bracketed key.pieces covers)

theorem runs_memberAccess (base : Branch) (legible : Legible key) (complete : Complete key)
    (covers : Covers first (part key).access count last) :
    (first.hand = .punctuator .dot ∨ first.hand = .punctuator .openBracket) ∧ 2 ≤ count ∧
      ∀ {reach : Reach} {cost : Nat}, reach.Serves cost → 8 * count ≤ cost + 8 →
        Runs (memberAccess reach base) first (op .member [base, key]) last := by
  rcases covers.member legible with ⟨name, lexeme, middle, rfl, names, dot, step, rfl⟩ |
    ⟨opened, middle, inner, step, covered, step', rfl⟩
  · refine ⟨.inl dot.hand, Nat.le_refl 2, ?_⟩
    intro reach cost serves enough
    apply Runs.eat dot
    exact Runs.bind (runs_expectPropertyName names step) (.pure _ last)
  · have leads := complete.closed covered (step'.hand ▸ closes_bracket)
    refine ⟨.inr step.hand, Nat.le_add_left 2 inner, ?_⟩
    intro reach cost serves enough
    apply Runs.not_eat (by simp [step.hand])
    apply Runs.expect step
    apply Runs.bind (serves leads (by omega))
    exact Runs.expect step' (.pure _ last)

theorem leads_suffixes_member (legible : Legible key) (complete : Complete key)
    (covers : Covers first (part key).access count middle)
    (rest : (Goal.suffixes (op .member [base, key])).Leads cost middle result ended) :
    (Goal.suffixes base).Leads (cost + 8 * count) first result ended := by
  obtain ⟨hand, some, access⟩ := runs_memberAccess base legible complete covers
  have enough := rest.pos
  have rule : (Goal.suffixes base).Leads (max (8 * count - 8) cost + 1) first result ended := by
    apply Goal.Leads.of_rule
    intro reach serves
    have both : Runs (memberAccess reach base >>= fun tree => reach (.suffixes tree)) first result
        ended :=
      .bind (access serves (by omega)) (serves rest (Nat.le_max_right _ _))
    apply Runs.peek
    rcases hand with hand | hand
    · rw [hand]
      exact both
    · rw [hand]
      exact both
  exact rule.mono (by omega)

theorem leads_callee_member (legible : Legible key) (complete : Complete key)
    (covers : Covers first (part key).access count middle)
    (rest : (Goal.callee (op .member [base, key])).Leads cost middle result ended) :
    (Goal.callee base).Leads (cost + 8 * count) first result ended := by
  obtain ⟨hand, some, access⟩ := runs_memberAccess base legible complete covers
  have enough := rest.pos
  have rule : (Goal.callee base).Leads (max (8 * count - 8) cost + 1) first result ended := by
    apply Goal.Leads.of_rule
    intro reach serves
    have both : Runs (memberAccess reach base >>= fun tree => reach (.callee tree)) first result
        ended :=
      .bind (access serves (by omega)) (serves rest (Nat.le_max_right _ _))
    rcases hand with hand | hand
    · apply Runs.at? hand
      exact Runs.not_at? (by simp [hand]) both
    · apply Runs.not_at? (by simp [hand])
      exact Runs.at? hand both
  exact rule.mono (by omega)

theorem AsChain.member {loop : Branch → Goal} (chain : AsChain base loop)
    (goes : ∀ {first middle ended : Cursor} {result : Branch} {count cost : Nat},
      Covers first (part key).access count middle →
      (loop (op .member [base, key])).Leads cost middle result ended →
      (loop base).Leads (cost + 8 * count) first result ended) :
    AsChain (op .member [base, key]) loop := by
  intro first last ended result count cost covers leads
  have printed : pieces (op .member [base, key]) = base.pieces ++ (part key).access := rfl
  rw [printed] at covers
  obtain ⟨between, i, j, covered, access, rfl⟩ := covers.append
  obtain ⟨bottom, middle, p, q, start, small, rest, less⟩ := chain covered (goes access leads)
  exact ⟨bottom, middle, p, q, start, by omega, rest, by omega⟩

theorem Covers.arguments {args : List Branch}
    (covers : Covers first (Part.arguments (args.map part)) count last) :
    ∃ opened rest, Step first (.punctuator .openParen) opened ∧ count = rest + 1 ∧
      Covers opened (separated (args.map pieces) ++ [.sign .closeParen]) rest last := by
  have printed : Part.arguments (args.map part) =
      .sign .openParen :: (separated (args.map pieces) ++ [.sign .closeParen]) := by
    simp [Part.arguments, Function.comp_def]
  rw [printed] at covers
  obtain ⟨opened, rest, step, more, same⟩ := covers.sign
  exact ⟨opened, rest, step, same, more⟩

theorem AsChain.call {args : List Branch} (chain : AsChain base .suffixes)
    (complete : ∀ tree ∈ args, Complete tree) : AsChain (op .call (base :: args)) .suffixes := by
  intro first last ended result count cost covers leads
  have printed : pieces (op .call (base :: args)) =
      base.pieces ++ Part.arguments (args.map part) := by
    rw [pieces_op]
    rfl
  rw [printed] at covers
  obtain ⟨between, i, j, covered, arguments, rfl⟩ := covers.append
  obtain ⟨opened, rest, step, rfl, listed⟩ := arguments.arguments
  have enough := leads.pos
  have goes : (Goal.suffixes base).Leads (max (8 * rest) cost + 1) between result ended := by
    apply Goal.Leads.of_rule
    intro reach serves
    apply Runs.peek
    rw [step.hand]
    apply Runs.advance step
    apply Runs.bind (runs_argumentList complete [base] serves (Nat.le_max_left _ _) listed)
    exact serves leads (Nat.le_max_right _ _)
  obtain ⟨bottom, middle, p, q, start, small, more, less⟩ := chain covered goes
  exact ⟨bottom, middle, p, q, start, by omega, more, by omega⟩

/-- `new` with its callee and its arguments, which are written out. -/
theorem AsPrimary.construct {args : List Branch} (callee : AsChain base .callee)
    (complete : ∀ tree ∈ args, Complete tree) : AsPrimary (op .construct (base :: args)) := by
  intro first last count covers
  -- The rule reads no arguments as an empty list of them, so both are printed as a list.
  have printed : (pieces (op .construct (base :: args))).flatMap Piece.full =
      (.word .new :: (base.pieces ++ Part.arguments (args.map part))).flatMap Piece.full := by
    rw [pieces_op]
    cases args with
    | nil =>
      change (.word .new :: (base.pieces ++ [.noArguments])).flatMap Piece.full = _
      simp only [List.flatMap_append, List.flatMap_cons, List.flatMap_nil]
      rfl
    | cons argument args => rfl
  have covers : Covers first (.word .new :: (base.pieces ++ Part.arguments (args.map part))) count
      last := by
    unfold Covers at covers ⊢
    rwa [printed] at covers
  obtain ⟨begun, rest, word, more, rfl⟩ := covers.word
  obtain ⟨between, i, j, covered, arguments, rfl⟩ := more.append
  obtain ⟨opened, inner, paren, rfl, listed⟩ := arguments.arguments
  obtain ⟨bottom, middle, p, q, start, small, goes, less⟩ :=
    callee covered (leads_callee_stop paren.hand)
  refine ⟨8 * (i + (inner + 1)) + 1, by omega, ?_⟩
  apply Goal.Leads.of_rule
  intro reach serves
  apply Runs.peek
  rw [word.hand]
  apply Runs.expectKeyword word
  apply Runs.bind (serves start (by omega))
  apply Runs.bind (serves goes (by omega))
  apply Runs.eat paren
  exact runs_argumentList complete [base] serves (by omega) listed

/-! Operators. -/

theorem runs_checkAssignable {target : Branch} (assignable : target.value.isAssignable = true) :
    Runs (checkAssignable target) first () first := by
  unfold checkAssignable
  rw [if_pos assignable]
  exact .pure () first

theorem runs_checkTarget {o : Operation} {target : Branch}
    (assignable : o.isAssignment = true → target.value.isAssignable = true) :
    Runs (checkTarget o target) first () first := by
  unfold checkTarget
  split
  · next writes => exact runs_checkAssignable (assignable writes)
  · exact .pure () first

theorem signPieces_of_sign {o : Operation} {lexeme : Lexeme} (sign : o.sign? = some lexeme) :
    o.signPieces = [.token lexeme] := by
  rw [Operation.signPieces, sign]
  rfl

theorem AsOperand.before {o : Operation} {lexeme : Lexeme} {inner : Branch}
    (operand : AsOperand inner) (sign : o.sign? = some lexeme) (is : lexeme.before? = some o)
    (printed : pieces (op o [inner]) = o.signPieces ++ inner.pieces)
    (assignable : o.isAssignment = true → inner.value.isAssignable = true) :
    AsOperand (op o [inner]) := by
  intro first last count covers plain
  rw [printed, signPieces_of_sign sign, List.singleton_append] at covers
  obtain ⟨middle, rest, step, covered, rfl⟩ := Covers.token covers
  have leads := operand covered plain
  have rule : Goal.operand.Leads (8 * rest + 1) first (op o [inner]) last := by
    apply Goal.Leads.of_rule
    intro reach serves
    apply Runs.peek
    rw [step.hand, is]
    apply Runs.advance step
    apply Runs.bind (serves leads (Nat.le_refl _))
    exact Runs.bind (runs_checkTarget assignable) (.pure _ last)
  exact rule.mono (by omega)

theorem AsOperand.behind {o : Operation} {p : Punctuator} {target : Branch}
    (chain : AsChain target .suffixes)
    (printed : pieces (op o [target]) = target.pieces ++ [.sign p])
    (steps : ∀ {reach : Reach} {first last : Cursor}, Step first (.punctuator p) last →
      Runs (suffixesRule reach target) first (op o [target]) last) : AsOperand (op o [target]) := by
  intro first last count covers _
  rw [printed] at covers
  obtain ⟨between, i, j, covered, ended, rfl⟩ := covers.append
  obtain ⟨step, rfl⟩ := ended.lastSign
  have goes : (Goal.suffixes target).Leads (0 + 1) between (op o [target]) last :=
    .of_rule fun reach _ => steps step
  obtain ⟨base, middle, p, q, start, small, rest, less⟩ := chain covered goes
  exact (leads_operand_of_primary start rest).mono (by omega)

theorem Lexeme.isSuffix_of_between? {lexeme : Lexeme} {o : Operation}
    (found : lexeme.between? = some o) : lexeme.isSuffix = false := by
  cases lexeme with
  | punctuator p => cases p <;> first | rfl | cases found
  | _ => rfl

theorem Operation.precedence_le_rightPrecedence (o : Operation) :
    o.precedence ≤ o.rightPrecedence := by
  unfold Operation.rightPrecedence
  split <;> omega

theorem Operation.rightPrecedence_le (o : Operation) : o.rightPrecedence ≤ o.precedence + 1 := by
  unfold Operation.rightPrecedence
  split <;> omega

/-- An operator between its operands. What stands between the sign and the last
operand is `middle`, printed as `added`. -/
theorem AsExpression.between {o : Operation} {lexeme : Lexeme} {left right : Branch}
    (middle : List Branch) (added : List Piece) (completeLeft : AsExpression left)
    (completeRight : AsExpression right) (between : o.isBetween = true)
    (sign : o.sign? = some lexeme) (is : lexeme.between? = some o)
    (printed : pieces (op o (left :: middle ++ [right])) =
      left.pieces ++ (o.signPieces ++ (added ++ right.pieces)))
    (inner : ∀ {first last : Cursor} {count : Nat}, Covers first added count last →
      ∀ {reach : Reach} {cost : Nat}, reach.Serves cost → 8 * count + 1 ≤ cost →
        Runs (middleOperands reach o) first middle last)
    (first : ∀ l ∈ left.value.between?, o.precedence < l.rightPrecedence)
    (last : ∀ r ∈ right.value.between?, o.rightPrecedence ≤ r.precedence)
    (assignable : o.isAssignment = true → left.value.isAssignable = true) :
    AsExpression (op o (left :: middle ++ [right])) := by
  intro start stop ended result count cost least covers plain strong stops leads
  have own : o ∈ (op o (left :: middle ++ [right])).value.between? := by
    simp [op, Rose.value, Node.between?, between]
  have weak : stop.hand.Stops o.rightPrecedence := stops o own
  rw [printed, signPieces_of_sign sign, List.singleton_append] at covers
  obtain ⟨atSign, i, _, coveredLeft, more, rfl⟩ := covers.append
  obtain ⟨behind, _, step, operands, rfl⟩ := Covers.token more
  obtain ⟨atRight, j, k, coveredMiddle, coveredRight, rfl⟩ := operands.append
  -- The right operand ends where the whole does, since what follows is too weak for it.
  have endsRight : (Goal.expression o.rightPrecedence).Leads (1 + 8 * k) atRight right stop := by
    apply completeRight coveredRight plain last
    · intro r isRight h found
      have enough := last r isRight
      have less := weak h found
      have more := r.precedence_le_rightPrecedence
      omega
    · exact leads_operators_stop weak
  have enough := leads.pos
  have goes : (Goal.operators least left).Leads (max (max (8 * j + 1) (1 + 8 * k)) cost + 1) atSign
      result ended := by
    apply Goal.Leads.of_rule
    intro reach serves
    apply Runs.peek
    rw [step.hand, is]
    simp only [if_neg (Nat.not_lt.mpr (strong o own))]
    apply Runs.bind (runs_checkTarget assignable)
    apply Runs.advance step
    apply Runs.bind (inner coveredMiddle serves (by omega))
    apply Runs.bind (serves endsRight (by omega))
    exact serves leads (by omega)
  -- The left operand ends at the sign, which is too weak for the operators inside it.
  have whole := completeLeft coveredLeft (step.hand ▸ Lexeme.isSuffix_of_between? is)
    (fun l isLeft => by
      have enough : least ≤ o.precedence := strong o own
      have less := first l isLeft
      have near := l.rightPrecedence_le
      omega)
    (fun l isLeft h found => by
      rw [step.hand, is] at found
      cases found
      exact first l isLeft)
    goes
  exact whole.mono (by omega)

end

namespace Operation

theorem sign_between {o : Operation} (between : o.isBetween = true) :
    ∃ lexeme, o.sign? = some lexeme ∧ lexeme.between? = some o := by
  cases o <;> first | exact ⟨_, rfl, rfl⟩ | cases between

theorem sign_before {o : Operation} (before : o.isBefore = true) :
    ∃ lexeme, o.sign? = some lexeme ∧ lexeme.before? = some o := by
  cases o <;> first | exact ⟨_, rfl, rfl⟩ | cases before

theorem arity?_of_isBetween {o : Operation} (between : o.isBetween = true)
    (simple : o ≠ .conditional) : o.arity? = some 2 := by
  cases o <;> first | rfl | exact absurd rfl simple | cases between

theorem arity?_of_isBefore {o : Operation} (before : o.isBefore = true) : o.arity? = some 1 := by
  cases o <;> first | rfl | cases before

theorem isAssignable_of_fits {o : Operation} {first : Branch} {rest : List Branch}
    (fits : o.fits ((first :: rest).map (·.value)) = true) (assigns : o.isAssignment = true) :
    first.value.isAssignable = true := by
  obtain ⟨_, _, same, assignable⟩ := assignable_of_fits fits assigns
  cases same
  exact assignable

end Operation

namespace Complete

variable {o : Operation} {children : List Branch}

theorem of_loose (loose : (Node.operation o).isChain = false)
    (operand : (Node.operation o).between? = none → AsOperand (op o children))
    (expression : AsExpression (op o children)) : Complete (op o children) := by
  constructor
  · intro is
    cases loose.symm.trans is
  · intro callee
    cases callee with
    | primary is =>
      have holds : (Node.operation o).isPrimary = true := is
      simp [Node.isChain, holds] at loose
    | member _ => cases loose
  · exact operand
  · exact expression
  · intro is
    cases is
    cases loose

theorem between (between : o.isBetween = true) (fits : o.fits (children.map (·.value)) = true)
    (binds : o.Binds (children.map (·.value))) (complete : ∀ tree ∈ children, Complete tree) :
    Complete (op o children) := by
  have loose : (Node.operation o).isChain = false := by
    cases o <;> first | rfl | cases between
  apply of_loose loose (by simp [Node.between?, between])
  obtain ⟨lexeme, sign, is⟩ := Operation.sign_between between
  by_cases conditional : o = .conditional
  · subst conditional
    have length := Operation.length_of_fits fits rfl
    obtain ⟨test, yes, no, rfl⟩ := List.length_eq_three.mp (by simpa using length)
    apply AsExpression.between [yes] (yes.pieces ++ [.sign .colon])
      (complete test (by simp)).expression (complete no (by simp)).expression between sign is
    · simp [pieces_op, Operation.pieces, Operation.signPieces, Operation.sign?, Piece.sign]
    -- The colon closes the middle operand, so nothing is asked of its strength.
    · intro first last count covers reach cost serves enough
      obtain ⟨middle, i, j, covered, ended, rfl⟩ := covers.append
      obtain ⟨step, rfl⟩ := ended.lastSign
      have leads := (complete yes (by simp)).closed covered (step.hand ▸ closes_colon)
      unfold middleOperands
      rw [if_pos rfl]
      apply Runs.bind (serves leads (by omega))
      exact Runs.expect step (.pure _ last)
    · simpa using binds.first between
    · simpa using binds.last between
    · exact Operation.isAssignable_of_fits fits
  · have length := Operation.length_of_fits fits (Operation.arity?_of_isBetween between conditional)
    obtain ⟨left, right, rfl⟩ := List.length_eq_two.mp (by simpa using length)
    apply AsExpression.between [] [] (complete left (by simp)).expression
      (complete right (by simp)).expression between sign is
    · simp [pieces_between between left right]
    · intro first last count covers reach cost serves enough
      obtain ⟨rfl, -⟩ := covers.nil
      unfold middleOperands
      rw [if_neg conditional]
      exact .pure [] first
    · simpa using binds.first between
    · simpa using binds.last between
    · exact Operation.isAssignable_of_fits fits

theorem before (before : o.isBefore = true) (fits : o.fits (children.map (·.value)) = true)
    (binds : o.Binds (children.map (·.value))) (complete : ∀ tree ∈ children, Complete tree) :
    Complete (op o children) := by
  have loose : (Node.operation o).isChain = false := by
    cases o <;> first | rfl | cases before
  obtain ⟨lexeme, sign, is⟩ := Operation.sign_before before
  have length := Operation.length_of_fits fits (Operation.arity?_of_isBefore before)
  match children with
  | [inner] =>
    have single : inner.value.between? = none := binds.operand before _ (by simp)
    have operand := ((complete inner (by simp)).operand single).before sign is
      (pieces_before before inner) (Operation.isAssignable_of_fits fits)
    exact of_loose loose (fun _ => operand) operand.expression

theorem of_chain {tree : Branch} (noGrouping : tree.value ≠ .operation .grouping)
    (chain : AsChain tree .suffixes) (callee : Callee tree → AsChain tree .callee) :
    Complete tree where
  chain _ := chain
  callee := callee
  operand _ := chain.operand
  expression := chain.operand.expression
  inside is := absurd is noGrouping

theorem behind {p : Punctuator} {target : Branch} (loose : (Node.operation o).isChain = false)
    (complete : Complete target) (assignable : target.value.isAssignable = true)
    (printed : pieces (op o [target]) = target.pieces ++ [.sign p])
    (steps : ∀ {reach : Reach} {first last : Cursor}, Step first (.punctuator p) last →
      Runs (suffixesRule reach target) first (op o [target]) last) : Complete (op o [target]) := by
  have chain : target.value.isChain = true := by
    rcases Node.cases_of_isAssignable assignable with ⟨name, is⟩ | is
    · rw [is]
      rfl
    · rw [is]
      rfl
  have operand : AsOperand (op o [target]) := .behind (complete.chain chain) printed steps
  exact of_loose loose (fun _ => operand) operand.expression

end Complete

/-- Every legible tree is read wherever it is spelled. -/
theorem complete_of_legible {tree : Branch} (legible : Legible tree) : Complete tree := by
  induction legible with
  | name valid => exact .use _
  | literal valid => exact .literal valid
  | @operation o children noFunction noComma fits binds base callee below ih =>
    -- Operators with a sign share one argument, the other operations have their own rules.
    by_cases between : o.isBetween = true
    · exact .between between fits binds ih
    by_cases before : o.isBefore = true
    · exact .before before fits binds ih
    cases o
    case functionLiteral => exact absurd rfl noFunction
    case comma => exact absurd rfl noComma
    case grouping =>
      match children, Operation.length_of_fits fits rfl with
      | [inner], _ => exact .grouping (ih inner (by simp))
    case objectLiteral => exact .objectLiteral below ih fits
    case arrayLiteral => exact .arrayLiteral below ih
    case member =>
      match children, Operation.length_of_fits fits rfl with
      | [bottom, key], _ =>
        have own := below key (by simp)
        have ownComplete := ih key (by simp)
        have chain := (ih bottom (by simp)).chain (base (.inl rfl) bottom rfl)
        apply Complete.of_chain (fun is => by cases is)
        · exact chain.member fun covers rest => leads_suffixes_member own ownComplete covers rest
        · intro is
          cases is with
          | primary primary => cases primary
          | member callee =>
            exact ((ih bottom (by simp)).callee callee).member fun covers rest =>
              leads_callee_member own ownComplete covers rest
    case call =>
      match children with
      | [] => cases fits
      | bottom :: args =>
        have chain := (ih bottom (by simp)).chain (base (.inr rfl) bottom rfl)
        apply Complete.of_chain (fun is => by cases is)
        · exact chain.call fun tree member => ih tree (by simp [member])
        · intro is
          cases is with
          | primary primary => cases primary
    case construct =>
      match children with
      | [] => cases fits
      | bottom :: args =>
        have chain := (ih bottom (by simp)).callee (callee rfl bottom rfl)
        exact .of_primary (.construct chain fun tree member => ih tree (by simp [member]))
          fun is => by cases is
    case postIncrement | postDecrement =>
      match children, Operation.length_of_fits fits rfl with
      | [target], _ =>
        have assignable := Operation.isAssignable_of_fits fits rfl
        apply Complete.behind rfl (ih target (by simp)) assignable rfl
        intro reach first last step
        apply Runs.peek
        rw [step.hand]
        apply Runs.bind (runs_checkAssignable assignable)
        exact Runs.advance step (.pure _ last)
    all_goals first | exact absurd rfl between | exact absurd rfl before

/-! ## Declarations -/

def declaration (name : String) (first : Branch) : Branch :=
  stmt .unit [stmt .expression [.node (.declare name) [first]]]

def declarationLexemes (name : String) (value : List Lexeme) : List Lexeme :=
  .keyword .var :: .identifier name :: .punctuator .assign :: value ++ [.punctuator .semicolon]

theorem leads_declaration {name : String} {tree : Branch} {lexemes : List Lexeme}
    {first last : Cursor} (legible : Legible tree)
    (spells : Spells (tree.pieces.flatMap Piece.full) lexemes)
    (moves : first.Moves (declarationLexemes name lexemes) last) (ended : last.hand = .eof) :
    (Goal.unit []).Leads (8 * lexemes.length + 3) first (declaration name tree) last := by
  obtain ⟨atName, word, moves⟩ := moves.uncons
  obtain ⟨atSign, named, moves⟩ := moves.uncons
  obtain ⟨atValue, assign, moves⟩ := moves.uncons
  obtain ⟨atEnd, covered, moves⟩ := moves.split
  obtain ⟨behind, semicolon, moves⟩ := moves.uncons
  obtain rfl := moves.eq_of_nil
  have closes : atEnd.hand.Closes := semicolon.hand ▸ ⟨rfl, rfl⟩
  have leads := (complete_of_legible legible).closed ⟨lexemes, spells, covered, rfl⟩ closes
  -- The statement takes all the tokens, and the unit ends behind it.
  have statement : Goal.statement.Leads (8 * lexemes.length + 1 + 1) first
      (stmt .expression [.node (.declare name) [tree]]) behind := by
    apply Goal.Leads.of_rule
    intro reach serves
    apply Runs.peek
    rw [word.hand]
    have clause : Runs (clause reach) first (.node (.declare name) [tree]) atEnd := by
      apply Runs.atKeyword? word.hand
      apply Runs.expectKeyword word
      apply Runs.expectIdentifier named
      apply Runs.eat assign
      exact Runs.bind (serves leads (Nat.le_refl _)) (.pure _ atEnd)
    apply Runs.bind clause
    apply Runs.at? semicolon.hand
    exact Runs.expect semicolon (.pure _ behind)
  have unit : (Goal.unit [stmt .expression [.node (.declare name) [tree]]]).Leads (0 + 1) behind
      (declaration name tree) behind := by
    apply Goal.Leads.of_rule
    intro reach serves
    apply Runs.peek
    rw [ended]
    exact .pure _ behind
  apply Goal.Leads.of_rule
  intro reach serves
  apply Runs.peek
  rw [word.hand]
  exact Runs.bind (serves statement (Nat.le_refl _)) (serves unit (by omega))

/-- A text with the tokens of a declaration parses to that declaration. -/
theorem parse_declaration {name source : String} {tree : Branch} {lexemes : List Lexeme}
    {tokens : List Token} (legible : Legible tree)
    (spells : Spells (tree.pieces.flatMap Piece.full) lexemes)
    (lexed : lexResults source = tokens.map .ok)
    (same : tokens.map (·.lexeme) = declarationLexemes name lexemes) :
    parse source = .ok (.ofRose (declaration name tree)) := by
  have inside : ∀ token ∈ tokens, token.lexeme ≠ .eof := by
    intro token member
    have listed : .ok token ∈ lexResults source := by
      rw [lexed]
      exact List.mem_map_of_mem member
    exact ne_eof_of_mem_resultsFrom listed
  obtain ⟨first, last, started, moves, ended⟩ :=
    moves_of_tokens tokens source.utf8ByteSize inside
  rw [same] at moves
  have length : tokens.length = lexemes.length + 4 := by
    have counted := congrArg List.length same
    simpa [declarationLexemes] using counted
  have run := leads_declaration legible spells moves ended
    (goalsPerToken * ((lexResults source).length + 2))
    (by rw [lexed, List.length_map, length, goalsPerToken]; omega)
  unfold Runs at run
  simp only [parse, parseTree, parseResults, lexed] at run ⊢
  rw [started]
  simp only [bind, Except.bind, run]
  rfl

end StepScript
