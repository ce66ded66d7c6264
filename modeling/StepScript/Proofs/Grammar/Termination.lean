import StepScript.Proofs.Grammar.Parsed

/-! Parsing ends.

The measure of a goal at a place is made of the tokens that are left there and the
rank of the goal. `Agrees` compares two computations: from any place with so many
tokens left they do the same, neither runs out of fuel, and they get past so many
tokens. One lemma for each rule shows that it asks for goals of a smaller measure
only: two ways to reach these make the rule do the same. So the fuel of the parser
never matters, and the rules have one solution, which needs no fuel.
-/

set_option autoImplicit false

namespace StepScript

/-- How many tokens are left to get past, the one at hand included. -/
def Cursor.left (cursor : Cursor) : Nat :=
  match cursor.hand with
  | .eof => cursor.rest.length
  | _ => cursor.rest.length + 1

namespace Cursor

theorem left_le (cursor : Cursor) : cursor.left ≤ cursor.rest.length + 1 := by
  unfold left
  split <;> omega

theorem left_eq_of_ne {cursor : Cursor} (inside : cursor.hand ≠ .eof) :
    cursor.left = cursor.rest.length + 1 := by
  unfold left
  split
  · contradiction
  · rfl

theorem left_le_of_advance {cursor next : Cursor} (advanced : cursor.advance = .ok next) :
    next.left ≤ cursor.rest.length := by
  obtain ⟨current, rest, size⟩ := cursor
  cases rest with
  | nil =>
    cases advanced
    exact Nat.le_refl 0
  | cons result rest =>
    cases result with
    | error e => cases advanced
    | ok token =>
      cases advanced
      exact left_le _

theorem advance_ne_outOfFuel (cursor : Cursor) : cursor.advance ≠ .error .outOfFuel := by
  obtain ⟨current, rest, size⟩ := cursor
  cases rest with
  | nil => simp [advance]
  | cons result rest => cases result <;> simp [advance]

end Cursor

open Branch Parse

namespace Parse

variable {α β : Type}

/-- From a place with `lexeme` at hand and at most `n` tokens left, `p` and `q` do the
same. They do not run out of fuel, and where they succeed they have got past `k` of
the `n` tokens. -/
def Agrees (lexeme : Lexeme) (n k : Nat) (p q : Parse α) : Prop :=
  ∀ cursor, cursor.hand = lexeme → cursor.left ≤ n →
    p.run cursor = q.run cursor ∧ p.run cursor ≠ .error .outOfFuel ∧
      ∀ a after, p.run cursor = .ok (a, after) → after.left + k ≤ n

namespace Agrees

variable {lexeme : Lexeme} {n k : Nat}

theorem pure (a : α) : Agrees lexeme n 0 (Pure.pure a) (Pure.pure a) := by
  intro cursor _ few
  refine ⟨rfl, nofun, ?_⟩
  rintro a after ⟨⟩
  exact few

theorem fail (wanted : Wanted) : Agrees lexeme n k (Parse.fail wanted : Parse α) (.fail wanted) :=
  fun _ _ _ => ⟨rfl, nofun, nofun⟩

theorem mono {j : Nat} {p q : Parse α} (agrees : Agrees lexeme n k p q) (fewer : j ≤ k) :
    Agrees lexeme n j p q := by
  intro cursor hand few
  obtain ⟨same, fueled, takes⟩ := agrees cursor hand few
  exact ⟨same, fueled, fun a after run => by have taken := takes a after run; omega⟩

theorem bind {j : Nat} {p q : Parse α} {f g : α → Parse β} (first : Agrees lexeme n j p q)
    (next : ∀ a hand m, m + j = n → Agrees hand m (k - j) (f a) (g a)) :
    Agrees lexeme n k (p >>= f) (q >>= g) := by
  intro cursor hand few
  obtain ⟨same, fueled, takes⟩ := first cursor hand few
  rw [StateT.run_bind, StateT.run_bind, ← same]
  cases run : p.run cursor with
  | error e =>
    rw [run] at fueled
    exact ⟨rfl, fun out => fueled (by cases out; rfl), fun _ _ more => nomatch more⟩
  | ok answer =>
    obtain ⟨a, between⟩ := answer
    have taken := takes a between run
    obtain ⟨same, fueled, takes⟩ := next a between.hand (n - j) (by omega) between rfl (by omega)
    refine ⟨same, fueled, fun b after more => ?_⟩
    have rest := takes b after more
    omega

theorem ite {c : Prop} [Decidable c] {p p' q q' : Parse α} (yes : c → Agrees lexeme n k p q)
    (no : ¬ c → Agrees lexeme n k p' q') :
    Agrees lexeme n k (if c then p else p') (if c then q else q') := by
  split
  · exact yes ‹c›
  · exact no ‹¬ c›

/-! The steps of the cursor, each with what follows it. -/

theorem peek {f g : Lexeme → Parse β} (next : Agrees lexeme n k (f lexeme) (g lexeme)) :
    Agrees lexeme n k (Parse.peek >>= f) (Parse.peek >>= g) := by
  intro cursor hand few
  cases hand
  exact next cursor rfl few

theorem get {f g : Cursor → Parse β}
    (next : ∀ cursor, Agrees lexeme cursor.left k (f cursor) (g cursor)) :
    Agrees lexeme n k (MonadState.get >>= f) (MonadState.get >>= g) := by
  intro cursor hand few
  obtain ⟨same, fueled, takes⟩ := next cursor cursor hand (Nat.le_refl _)
  exact ⟨same, fueled, fun a after run => Nat.le_trans (takes a after run) few⟩

theorem advance {f g : Unit → Parse β} (inside : lexeme ≠ .eof)
    (next : ∀ hand m, m + 1 = n → Agrees hand m (k - 1) (f ()) (g ())) :
    Agrees lexeme n k (Parse.advance >>= f) (Parse.advance >>= g) := by
  -- Taking a token leaves one less, which pays for what comes behind.
  have step : Agrees lexeme n 1 Parse.advance Parse.advance := by
    intro cursor hand few
    rw [Cursor.left_eq_of_ne (hand ▸ inside)] at few
    have ran : Parse.advance.run cursor = cursor.advance.map fun next => ((), next) := by
      simp only [Parse.advance, StateT.run_bind, StateT.run_get, pure_bind]
      cases cursor.advance <;> rfl
    refine ⟨rfl, ?_, ?_⟩
    · have fueled := cursor.advance_ne_outOfFuel
      rw [ran]
      cases advanced : cursor.advance with
      | error e =>
        rw [advanced] at fueled
        exact fun out => fueled (by cases out; rfl)
      | ok next =>
        intro out
        cases out
    · intro a after run
      rw [ran] at run
      cases advanced : cursor.advance with
      | error e =>
        rw [advanced] at run
        cases run
      | ok next =>
        rw [advanced] at run
        cases run
        have behind := Cursor.left_le_of_advance advanced
        omega
  exact bind step fun _ hand m less => next hand m less

theorem at? {p : Punctuator} {f g : Bool → Parse β}
    (yes : lexeme = .punctuator p → Agrees lexeme n k (f true) (g true))
    (no : Agrees lexeme n k (f false) (g false)) :
    Agrees lexeme n k (Parse.at? p >>= f) (Parse.at? p >>= g) := by
  unfold Parse.at?
  rw [bind_assoc, bind_assoc]
  apply peek
  cases lexeme with
  | punctuator q =>
    by_cases same : q = p
    · cases same
      simpa using yes rfl
    · have different : (q == p) = false := beq_eq_false_iff_ne.mpr same
      simpa [different] using no
  | _ => exact no

theorem atKeyword? {w : Keyword} {f g : Bool → Parse β}
    (yes : lexeme = .keyword w → Agrees lexeme n k (f true) (g true))
    (no : Agrees lexeme n k (f false) (g false)) :
    Agrees lexeme n k (Parse.atKeyword? w >>= f) (Parse.atKeyword? w >>= g) := by
  unfold Parse.atKeyword?
  rw [bind_assoc, bind_assoc]
  apply peek
  cases lexeme with
  | keyword q =>
    by_cases same : q = w
    · cases same
      simpa using yes rfl
    · have different : (q == w) = false := beq_eq_false_iff_ne.mpr same
      simpa [different] using no
  | _ => exact no

theorem eat {p : Punctuator} {f g : Bool → Parse β}
    (yes : ∀ hand m, m + 1 = n → Agrees hand m (k - 1) (f true) (g true))
    (no : Agrees lexeme n k (f false) (g false)) :
    Agrees lexeme n k (Parse.eat p >>= f) (Parse.eat p >>= g) := by
  unfold Parse.eat
  rw [bind_assoc, bind_assoc]
  apply at?
  · intro same
    rw [if_pos rfl, bind_assoc, bind_assoc]
    cases same
    exact advance (by simp) yes
  · exact no

theorem eatKeyword {w : Keyword} {f g : Bool → Parse β}
    (yes : ∀ hand m, m + 1 = n → Agrees hand m (k - 1) (f true) (g true))
    (no : Agrees lexeme n k (f false) (g false)) :
    Agrees lexeme n k (Parse.eatKeyword w >>= f) (Parse.eatKeyword w >>= g) := by
  unfold Parse.eatKeyword
  rw [bind_assoc, bind_assoc]
  apply atKeyword?
  · intro same
    rw [if_pos rfl, bind_assoc, bind_assoc]
    cases same
    exact advance (by simp) yes
  · exact no

theorem expect {p : Punctuator} {f g : Unit → Parse β}
    (next : ∀ hand m, m + 1 = n → Agrees hand m (k - 1) (f ()) (g ())) :
    Agrees lexeme n k (Parse.expect p >>= f) (Parse.expect p >>= g) := by
  unfold Parse.expect
  rw [bind_assoc, bind_assoc]
  exact eat next (fail _)

theorem expectKeyword {w : Keyword} {f g : Unit → Parse β}
    (next : ∀ hand m, m + 1 = n → Agrees hand m (k - 1) (f ()) (g ())) :
    Agrees lexeme n k (Parse.expectKeyword w >>= f) (Parse.expectKeyword w >>= g) := by
  unfold Parse.expectKeyword
  rw [bind_assoc, bind_assoc]
  exact eatKeyword next (fail _)

theorem expectIdentifier {f g : String → Parse β}
    (next : ∀ name hand m, m + 1 = n → Agrees hand m (k - 1) (f name) (g name)) :
    Agrees lexeme n k (Parse.expectIdentifier >>= f) (Parse.expectIdentifier >>= g) := by
  unfold Parse.expectIdentifier
  rw [bind_assoc, bind_assoc]
  apply peek
  cases lexeme with
  | identifier name =>
    rw [bind_assoc, bind_assoc]
    exact advance (by simp) (next name)
  | _ => exact fail _

theorem expectPropertyName {f g : String → Parse β}
    (next : ∀ name hand m, m + 1 = n → Agrees hand m (k - 1) (f name) (g name)) :
    Agrees lexeme n k (Parse.expectPropertyName >>= f) (Parse.expectPropertyName >>= g) := by
  unfold Parse.expectPropertyName
  rw [bind_assoc, bind_assoc]
  apply peek
  cases lexeme with
  | identifier | keyword | number | string =>
    simp only [pure_bind, bind_assoc]
    exact advance (by simp) (next _)
  | _ => exact fail _

theorem checkAssignable {target : Branch} {f g : Unit → Parse β}
    (next : Agrees lexeme n k (f ()) (g ())) :
    Agrees lexeme n k (StepScript.checkAssignable target >>= f)
      (StepScript.checkAssignable target >>= g) := by
  unfold StepScript.checkAssignable
  by_cases assignable : target.value.isAssignable = true
  · rw [if_pos assignable]
    exact next
  · rw [if_neg assignable]
    exact fun _ _ _ => ⟨rfl, nofun, nofun⟩

theorem checkTarget {o : Operation} {target : Branch} {f g : Unit → Parse β}
    (next : Agrees lexeme n k (f ()) (g ())) :
    Agrees lexeme n k (StepScript.checkTarget o target >>= f)
      (StepScript.checkTarget o target >>= g) := by
  unfold StepScript.checkTarget
  by_cases assigns : o.isAssignment = true
  · rw [if_pos assigns]
    exact checkAssignable next
  · rw [if_neg assigns]
    exact next

end Agrees

end Parse

namespace Goal

/-- The place of a goal among those that are sent for with no token between them. A goal
sends for lower ones only until a token has been taken. -/
def rank : Goal → Nat
  | unit _ | blockRest _ => 4
  | statement | arguments _ _ | elements _ => 3
  | expression _ => 2
  | operand => 1
  | _ => 0

def takes : Goal → Nat
  | unit _ | operators _ _ | suffixes _ | callee _ => 0
  | _ => 1

theorem rank_lt (goal : Goal) : goal.rank < goalsPerToken := by
  cases goal <;> exact Nat.le_of_ble_eq_true rfl

/-- What gets smaller from goal to goal. -/
def measure (goal : Goal) (cursor : Cursor) : Nat :=
  goalsPerToken * cursor.left + goal.rank

end Goal

def Reach.Agrees (n rank : Nat) (reach reach' : Reach) : Prop :=
  ∀ (goal : Goal) (m : Nat), m < n ∨ m = n ∧ goal.rank < rank →
    ∀ lexeme, Parse.Agrees lexeme m goal.takes (reach goal) (reach' goal)

namespace Reach.Agrees

variable {n m rank : Nat} {reach reach' : Reach}

theorem fewer (agrees : Reach.Agrees n rank reach reach') (less : m < n) (rank' : Nat) :
    Reach.Agrees m rank' reach reach' := by
  intro goal m' smaller
  exact agrees goal m' (.inl (by omega))

theorem lower (agrees : Reach.Agrees n rank reach reach') (goal : Goal)
    (below : goal.rank < rank) {lexeme : Lexeme} :
    Parse.Agrees lexeme n goal.takes (reach goal) (reach' goal) :=
  agrees goal n (.inr ⟨rfl, below⟩) lexeme

theorem behind (agrees : Reach.Agrees n rank reach reach') (goal : Goal) (less : m < n)
    {lexeme : Lexeme} : Parse.Agrees lexeme m goal.takes (reach goal) (reach' goal) :=
  agrees goal m (.inl less) lexeme

end Reach.Agrees

section

variable {lexeme : Lexeme} {n : Nat}

theorem agrees_parameters {limit limit' : Nat} (some : 0 < limit) (enough : n ≤ limit)
    (some' : 0 < limit') (enough' : n ≤ limit') (done : List Branch) :
    Agrees lexeme n 1 (parameters limit done) (parameters limit' done) := by
  induction limit generalizing lexeme n limit' done with
  | zero => omega
  | succ limit ih =>
    cases limit' with
    | zero => omega
    | succ limit' =>
      apply Agrees.expectIdentifier
      intro name hand m less
      apply Agrees.eat
      · -- A name and a comma have been taken.
        intro hand m' less'
        have more := @ih hand m' limit' (by omega) (by omega) (by omega) (by omega)
          (lit (.string name) :: done)
        exact more.mono (by omega)
      · exact .expect fun _ _ _ => .pure _

theorem agrees_parameterList : Agrees lexeme n 1 parameterList parameterList := by
  refine .expect fun hand m less => .eat (fun _ _ _ => .pure _) ?_
  refine .get fun cursor => ?_
  have enough := cursor.left_le
  exact (agrees_parameters (by omega) enough (by omega) enough []).mono (by omega)

theorem agrees_functionName : Agrees lexeme n 0 functionName functionName := by
  apply Agrees.peek
  cases lexeme with
  | identifier name => exact .expectIdentifier fun _ _ _ _ => .pure _
  | _ => exact .pure _

theorem agrees_literalRule (inside : lexeme ≠ .eof) (value : Value) :
    Agrees lexeme n 1 (literalRule value) (literalRule value) :=
  .advance inside fun _ _ _ => .pure _

end

/-! ## Rules of expressions -/

section Expressions

variable {lexeme : Lexeme} {n : Nat} {reach reach' : Reach}

theorem agrees_anyExpression {rank : Nat} (agrees : Reach.Agrees n rank reach reach')
    (above : 2 < rank) : Agrees lexeme n 1 (anyExpression reach) (anyExpression reach') :=
  agrees.lower (.expression 0) above

theorem agrees_expressionRule (agrees : Reach.Agrees n 2 reach reach') (least : Nat) :
    Agrees lexeme n 1 (expressionRule reach least) (expressionRule reach' least) := by
  refine .bind (agrees.lower .operand (by decide)) fun left hand m (less : m + 1 = n) => ?_
  exact agrees.behind (.operators least left) (by omega)

theorem agrees_middleOperands (agrees : Reach.Agrees n 3 reach reach') (o : Operation) :
    Agrees lexeme n 0 (middleOperands reach o) (middleOperands reach' o) := by
  refine .ite (fun _ => ?_) fun _ => .pure _
  refine .bind (agrees_anyExpression agrees (by decide)) fun middle hand m less => ?_
  exact .expect fun hand m' less' => .pure _

theorem agrees_operatorsRule (agrees : Reach.Agrees n 0 reach reach') (least : Nat)
    (left : Branch) :
    Agrees lexeme n 0 (operatorsRule reach least left) (operatorsRule reach' least left) := by
  apply Agrees.peek
  cases between : lexeme.between? with
  | none => exact .pure _
  | some o =>
    have inside : lexeme ≠ .eof := by
      rintro rfl
      cases between
    refine .ite (fun _ => .pure _) fun _ => .checkTarget (.advance inside fun hand m less => ?_)
    refine .bind (agrees_middleOperands (agrees.fewer (by omega) 3) o) fun middle hand m' _ => ?_
    refine .bind (agrees.behind (.expression _) (by omega)) fun right hand m'' _ => ?_
    exact agrees.behind (.operators least _) (by omega)

theorem agrees_operandRule (agrees : Reach.Agrees n 1 reach reach') :
    Agrees lexeme n 1 (operandRule reach) (operandRule reach') := by
  apply Agrees.peek
  cases before : lexeme.before? with
  | some o =>
    have inside : lexeme ≠ .eof := by
      rintro rfl
      cases before
    refine .advance inside fun hand m less => ?_
    refine .bind (agrees.behind .operand (by omega)) fun inner hand m' _ => ?_
    exact .checkTarget (.pure _)
  | none =>
    refine .bind (agrees.lower .primary (by decide)) fun base hand m (less : m + 1 = n) => ?_
    exact agrees.behind (.suffixes base) (by omega)

theorem agrees_memberAccess (agrees : Reach.Agrees n 0 reach reach') (base : Branch) :
    Agrees lexeme n 1 (memberAccess reach base) (memberAccess reach' base) := by
  refine .eat (fun hand m less => .expectPropertyName fun _ _ _ _ => .pure _) ?_
  refine .expect fun hand m less => ?_
  refine .bind (agrees_anyExpression (agrees.fewer (by omega) 3) (by decide)) fun key _ _ _ => ?_
  exact .expect fun _ _ _ => .pure _

theorem agrees_argumentList (agrees : Reach.Agrees n 4 reach reach') (o : Operation)
    (done : List Branch) :
    Agrees lexeme n 1 (argumentList reach o done) (argumentList reach' o done) :=
  .eat (fun _ _ _ => .pure _) (agrees.lower (.arguments o done) (Nat.lt_succ_self 3))

theorem agrees_suffixesRule (agrees : Reach.Agrees n 0 reach reach') (base : Branch) :
    Agrees lexeme n 0 (suffixesRule reach base) (suffixesRule reach' base) := by
  have accesses : Agrees lexeme n 0
      (memberAccess reach base >>= fun access => reach (.suffixes access))
      (memberAccess reach' base >>= fun access => reach' (.suffixes access)) :=
    .bind (agrees_memberAccess agrees base) fun access hand m less =>
      agrees.behind (.suffixes access) (by omega)
  apply Agrees.peek
  split
  case h_1 => exact accesses
  case h_2 => exact accesses
  case h_3 =>
    refine .advance (by simp) fun hand m less => ?_
    refine .bind (agrees_argumentList (agrees.fewer (by omega) 4) .call [base])
      fun call hand m' _ => ?_
    exact agrees.behind (.suffixes call) (by omega)
  case h_4 => exact .checkAssignable (.advance (by simp) fun _ _ _ => .pure _)
  case h_5 => exact .checkAssignable (.advance (by simp) fun _ _ _ => .pure _)
  case h_6 => exact .pure _

theorem agrees_argumentsRule (agrees : Reach.Agrees n 3 reach reach') (o : Operation)
    (done : List Branch) :
    Agrees lexeme n 1 (argumentsRule reach o done) (argumentsRule reach' o done) := by
  refine .bind (agrees_anyExpression agrees (by decide)) fun argument hand m less => ?_
  refine .eat (fun hand m' less' => ?_) (.expect fun _ _ _ => .pure _)
  exact (agrees.behind (.arguments o (argument :: done)) (by omega)).mono (by omega)

theorem agrees_groupingRule (agrees : Reach.Agrees n 0 reach reach') :
    Agrees lexeme n 1 (groupingRule reach) (groupingRule reach') := by
  refine .expect fun hand m less => ?_
  refine .bind (agrees_anyExpression (agrees.fewer (by omega) 3) (by decide)) fun inner _ _ _ => ?_
  exact .expect fun _ _ _ => .pure _

theorem agrees_objectEntry (agrees : Reach.Agrees n 0 reach reach') :
    Agrees lexeme n 1 (objectEntry reach) (objectEntry reach') := by
  -- What stands behind a colon.
  have value {f : Branch → Branch × Branch} {hand : Lexeme} {m : Nat} (less : m < n) :
      Agrees hand m 0 (anyExpression reach >>= fun value => pure (f value))
        (anyExpression reach' >>= fun value => pure (f value)) :=
    .bind (agrees_anyExpression (agrees.fewer less 3) (by decide)) fun _ _ _ _ => .pure _
  refine .eat (fun hand m less => ?_) (.peek (.expectPropertyName fun name hand m less => ?_))
  · refine .bind (agrees_anyExpression (agrees.fewer (by omega) 3) (by decide)) fun key _ m' _ => ?_
    refine .expect fun _ _ _ => .expect fun _ _ _ => ?_
    exact (value (by omega)).mono (by omega)
  · refine .eat (fun hand m' less' => (value (by omega)).mono (by omega)) ?_
    rw [if_neg Bool.false_ne_true, if_neg Bool.false_ne_true]
    exact .ite (fun _ => .pure _) fun _ => .fail _

theorem agrees_entriesRule (agrees : Reach.Agrees n 0 reach reach') (done : List Branch) :
    Agrees lexeme n 1 (entriesRule reach done) (entriesRule reach' done) := by
  refine .bind (agrees_objectEntry agrees) fun entry hand m less => ?_
  refine .eat (fun hand m' less' => ?_) (.expect fun _ _ _ => .pure _)
  exact (agrees.behind (.entries _) (by omega)).mono (by omega)

theorem agrees_objectRule (agrees : Reach.Agrees n 0 reach reach') :
    Agrees lexeme n 1 (objectRule reach) (objectRule reach') := by
  refine .expect fun hand m less => .eat (fun _ _ _ => .pure _) ?_
  exact (agrees.behind (.entries []) (by omega)).mono (by omega)

theorem agrees_arrayElement (agrees : Reach.Agrees n 3 reach reach') :
    Agrees lexeme n 0 (arrayElement reach) (arrayElement reach') := by
  have hole : Agrees lexeme n 0 (pure (lit .undefined)) (pure (lit .undefined)) := .pure _
  refine .at? (fun _ => .at? (fun _ => hole) hole) (.at? (fun _ => hole) ?_)
  exact (agrees_anyExpression agrees (by decide)).mono (by omega)

theorem agrees_elementsRule (agrees : Reach.Agrees n 3 reach reach') (done : List Branch) :
    Agrees lexeme n 1 (elementsRule reach done) (elementsRule reach' done) := by
  -- A hole takes nothing: it is the comma or the bracket behind it that gets on.
  refine .bind (agrees_arrayElement agrees) fun element hand m less => ?_
  refine .eat (fun hand m' less' => ?_) (.expect fun _ _ _ => .pure _)
  exact (agrees.behind (.elements _) (by omega)).mono (by omega)

theorem agrees_arrayRule (agrees : Reach.Agrees n 0 reach reach') :
    Agrees lexeme n 1 (arrayRule reach) (arrayRule reach') := by
  refine .expect fun hand m less => .eat (fun _ _ _ => .pure _) ?_
  exact (agrees.behind (.elements []) (by omega)).mono (by omega)

theorem agrees_functionRule (agrees : Reach.Agrees n 0 reach reach') :
    Agrees lexeme n 1 (functionRule reach) (functionRule reach') := by
  refine .expectKeyword fun hand m less => ?_
  refine .bind agrees_functionName fun name hand m' _ => ?_
  refine .bind agrees_parameterList fun params hand m'' _ => ?_
  exact .bind (agrees.behind .block (by omega)) fun _ _ _ _ => .pure _

theorem agrees_constructRule (agrees : Reach.Agrees n 0 reach reach') :
    Agrees lexeme n 1 (constructRule reach) (constructRule reach') := by
  refine .expectKeyword fun hand m less => ?_
  refine .bind (agrees.behind .primary (by omega)) fun base hand m' _ => ?_
  refine .bind (agrees.behind (.callee base) (by omega)) fun callee hand m'' _ => ?_
  refine .eat (fun hand _ _ => ?_) (.pure _)
  exact (agrees_argumentList (agrees.fewer (by omega) 4) .construct [callee]).mono (by omega)

theorem agrees_calleeRule (agrees : Reach.Agrees n 0 reach reach') (base : Branch) :
    Agrees lexeme n 0 (calleeRule reach base) (calleeRule reach' base) := by
  have accesses : Agrees lexeme n 0
      (memberAccess reach base >>= fun access => reach (.callee access))
      (memberAccess reach' base >>= fun access => reach' (.callee access)) :=
    .bind (agrees_memberAccess agrees base) fun access hand m less =>
      agrees.behind (.callee access) (by omega)
  exact .at? (fun _ => .at? (fun _ => accesses) accesses) (.at? (fun _ => accesses) (.pure _))

theorem agrees_primaryRule (agrees : Reach.Agrees n 0 reach reach') :
    Agrees lexeme n 1 (primaryRule reach) (primaryRule reach') := by
  apply Agrees.peek
  split
  case h_7 => exact .expectIdentifier fun _ _ _ _ => .pure _
  case h_8 => exact agrees_groupingRule agrees
  case h_9 => exact agrees_objectRule agrees
  case h_10 => exact agrees_arrayRule agrees
  case h_11 => exact agrees_functionRule agrees
  case h_12 => exact agrees_constructRule agrees
  case h_13 => exact .fail _
  all_goals exact agrees_literalRule (by simp) _

end Expressions

/-! ## Rules of statements -/

section Statements

variable {lexeme : Lexeme} {n : Nat} {reach reach' : Reach}

theorem agrees_blockRule (agrees : Reach.Agrees n 0 reach reach') :
    Agrees lexeme n 1 (blockRule reach) (blockRule reach') := by
  refine .expect fun hand m less => ?_
  exact (agrees.behind (.blockRest []) (by omega)).mono (by omega)

theorem agrees_blockRestRule (agrees : Reach.Agrees n 4 reach reach') (done : List Branch) :
    Agrees lexeme n 1 (blockRestRule reach done) (blockRestRule reach' done) := by
  have more : Agrees lexeme n 1
      (reach .statement >>= fun statement => reach (.blockRest (statement :: done)))
      (reach' .statement >>= fun statement => reach' (.blockRest (statement :: done))) := by
    refine .bind (agrees.lower .statement (by decide)) fun statement hand m
      (less : m + 1 = n) => ?_
    exact (agrees.behind (.blockRest _) (by omega)).mono (Nat.zero_le _)
  apply Agrees.at?
  · intro closing
    rw [closing]
    exact .advance (by simp) fun _ _ _ => .pure _
  · apply Agrees.peek
    cases lexeme with
    | eof => exact .fail _
    | _ => exact more

theorem agrees_unitRule (agrees : Reach.Agrees n 4 reach reach') (done : List Branch) :
    Agrees lexeme n 0 (unitRule reach done) (unitRule reach' done) := by
  have more : Agrees lexeme n 0
      (reach .statement >>= fun statement => reach (.unit (statement :: done)))
      (reach' .statement >>= fun statement => reach' (.unit (statement :: done))) := by
    refine .bind (agrees.lower .statement (by decide)) fun statement hand m
      (less : m + 1 = n) => ?_
    exact agrees.behind (.unit _) (by omega)
  apply Agrees.peek
  cases lexeme with
  | eof => exact .pure _
  | _ => exact more

theorem agrees_condition (agrees : Reach.Agrees n 0 reach reach') :
    Agrees lexeme n 1 (condition reach) (condition reach') := by
  refine .expect fun hand m less => ?_
  refine .bind (agrees_anyExpression (agrees.fewer (by omega) 3) (by decide)) fun test _ _ _ => ?_
  exact .expect fun _ _ _ => .pure _

theorem agrees_inner {m : Nat} (agrees : Reach.Agrees n 0 reach reach') (less : m < n) :
    Agrees lexeme m 1 (reach .statement) (reach' .statement) :=
  agrees.behind .statement less

variable (inside : lexeme ≠ .eof)
include inside

theorem agrees_ifRule (agrees : Reach.Agrees n 0 reach reach') :
    Agrees lexeme n 1 (ifRule reach) (ifRule reach') := by
  refine .advance inside fun hand m less => ?_
  refine .bind (agrees_condition (agrees.fewer (by omega) 0)) fun test hand m' _ => ?_
  refine .bind (agrees_inner agrees (by omega)) fun consequent hand m'' _ => ?_
  refine .eatKeyword (fun hand _ _ => ?_) (.pure _)
  exact .bind (agrees_inner agrees (by omega)) fun _ _ _ _ => .pure _

theorem agrees_whileRule (agrees : Reach.Agrees n 0 reach reach') :
    Agrees lexeme n 1 (whileRule reach) (whileRule reach') := by
  refine .advance inside fun hand m less => ?_
  refine .bind (agrees_condition (agrees.fewer (by omega) 0)) fun test hand m' _ => ?_
  exact .bind (agrees_inner agrees (by omega)) fun _ _ _ _ => .pure _

theorem agrees_doRule (agrees : Reach.Agrees n 0 reach reach') :
    Agrees lexeme n 1 (doRule reach) (doRule reach') := by
  refine .advance inside fun hand m less => ?_
  refine .bind (agrees_inner agrees (by omega)) fun body hand m' _ => ?_
  refine .expectKeyword fun hand m'' _ => ?_
  refine .bind (agrees_condition (agrees.fewer (by omega) 0)) fun test _ _ _ => ?_
  exact .expect fun _ _ _ => .pure _

omit inside in
theorem agrees_declarationRule (agrees : Reach.Agrees n 0 reach reach') :
    Agrees lexeme n 1 (declarationRule reach) (declarationRule reach') := by
  refine .expectKeyword fun hand m _ => .expectIdentifier fun name hand m' _ => ?_
  refine .eat (fun hand m'' _ => ?_) (.pure _)
  exact .bind (agrees_anyExpression (agrees.fewer (by omega) 3) (by decide)) fun _ _ _ _ => .pure _

omit inside in
theorem agrees_clause (agrees : Reach.Agrees n 3 reach reach') :
    Agrees lexeme n 1 (clause reach) (clause reach') := by
  refine .atKeyword? (fun _ => ?_) (agrees_anyExpression agrees (by decide))
  exact agrees_declarationRule fun goal m smaller => agrees goal m (by omega)

omit inside in
theorem agrees_firstClause (agrees : Reach.Agrees n 3 reach reach') :
    Agrees lexeme n 0 (firstClause reach) (firstClause reach') :=
  .at? (fun _ => .pure _) ((agrees_clause agrees).mono (by omega))

omit inside in
theorem agrees_optionalClause (agrees : Reach.Agrees n 3 reach reach') (stop : Punctuator) :
    Agrees lexeme n 0 (optionalClause reach stop) (optionalClause reach' stop) :=
  .at? (fun _ => .pure _) ((agrees_anyExpression agrees (by decide)).mono (by omega))

theorem agrees_forRule (agrees : Reach.Agrees n 0 reach reach') :
    Agrees lexeme n 1 (forRule reach) (forRule reach') := by
  refine .advance inside fun _ _ _ => .expect fun _ _ _ => ?_
  refine .bind (agrees_firstClause (agrees.fewer (by omega) 3)) fun start _ _ _ => ?_
  refine .expect fun _ _ _ => ?_
  refine .bind (agrees_optionalClause (agrees.fewer (by omega) 3) _) fun test _ _ _ => ?_
  refine .expect fun _ _ _ => ?_
  refine .bind (agrees_optionalClause (agrees.fewer (by omega) 3) _) fun step _ _ _ => ?_
  refine .expect fun _ _ _ => ?_
  exact .bind (agrees_inner agrees (by omega)) fun _ _ _ _ => .pure _

theorem agrees_returnRule (agrees : Reach.Agrees n 0 reach reach') :
    Agrees lexeme n 1 (returnRule reach) (returnRule reach') := by
  refine .advance inside fun hand m less => .at? (fun _ => .expect fun _ _ _ => .pure _) ?_
  refine .bind (agrees_anyExpression (agrees.fewer (by omega) 3) (by decide)) fun value _ _ _ => ?_
  exact .expect fun _ _ _ => .pure _

theorem agrees_throwRule (agrees : Reach.Agrees n 0 reach reach') :
    Agrees lexeme n 1 (throwRule reach) (throwRule reach') := by
  refine .advance inside fun hand m less => ?_
  refine .bind (agrees_anyExpression (agrees.fewer (by omega) 3) (by decide)) fun value _ _ _ => ?_
  exact .expect fun _ _ _ => .pure _

theorem agrees_jumpRule (statement : Statement) :
    Agrees lexeme n 1 (jumpRule statement) (jumpRule statement) :=
  .advance inside fun _ _ _ => .expect fun _ _ _ => .pure _

omit inside in
theorem agrees_expressionStatementRule (agrees : Reach.Agrees n 3 reach reach') :
    Agrees lexeme n 1 (expressionStatementRule reach) (expressionStatementRule reach') := by
  refine .bind (agrees_clause agrees) fun inner hand m less => ?_
  have ended : Agrees hand m 0
      (expect .semicolon >>= fun _ => pure (stmt .expression [inner]))
      (expect .semicolon >>= fun _ => pure (stmt .expression [inner])) :=
    .expect fun _ _ _ => .pure _
  exact .at? (fun _ => .ite (fun _ => .pure _) fun _ => ended)
    (.ite (fun _ => .pure _) fun _ => ended)

omit inside in
theorem agrees_statementRule (agrees : Reach.Agrees n 3 reach reach') :
    Agrees lexeme n 1 (statementRule reach) (statementRule reach') := by
  -- All but expression statements start with a token of their own.
  have below : Reach.Agrees n 0 reach reach' := fun goal m smaller => agrees goal m (by omega)
  apply Agrees.peek
  split
  case h_1 => exact agrees_blockRule below
  case h_2 => exact agrees_ifRule (by simp) below
  case h_3 => exact agrees_whileRule (by simp) below
  case h_4 => exact agrees_doRule (by simp) below
  case h_5 => exact agrees_forRule (by simp) below
  case h_6 => exact agrees_returnRule (by simp) below
  case h_7 => exact agrees_throwRule (by simp) below
  case h_8 => exact agrees_jumpRule (by simp) .breakOut
  case h_9 => exact agrees_jumpRule (by simp) .continueOn
  case h_10 => exact agrees_expressionStatementRule agrees

end Statements

/-- A rule asks for goals of a smaller measure only. -/
theorem agrees_rule {lexeme : Lexeme} {n : Nat} {reach reach' : Reach} (goal : Goal)
    (agrees : Reach.Agrees n goal.rank reach reach') :
    Agrees lexeme n goal.takes (goal.rule reach) (goal.rule reach') := by
  cases goal with
  | unit done => exact agrees_unitRule agrees done
  | statement => exact agrees_statementRule agrees
  | block => exact agrees_blockRule agrees
  | blockRest done => exact agrees_blockRestRule agrees done
  | expression least => exact agrees_expressionRule agrees least
  | operators least left => exact agrees_operatorsRule agrees least left
  | operand => exact agrees_operandRule agrees
  | suffixes base => exact agrees_suffixesRule agrees base
  | primary => exact agrees_primaryRule agrees
  | callee base => exact agrees_calleeRule agrees base
  | arguments o done => exact agrees_argumentsRule agrees o done
  | entries done => exact agrees_entriesRule agrees done
  | elements done => exact agrees_elementsRule agrees done

/-! ## Fuel does not matter -/

/-- Where the fuel exceeds the measure it does not matter how much there is. -/
theorem agrees_parse {fuel fuel' n : Nat} (goal : Goal)
    (enough : goalsPerToken * n + goal.rank < fuel)
    (enough' : goalsPerToken * n + goal.rank < fuel') (lexeme : Lexeme) :
    Agrees lexeme n goal.takes (goal.parse fuel) (goal.parse fuel') := by
  induction fuel generalizing fuel' n goal lexeme with
  | zero => omega
  | succ fuel ih =>
    obtain _ | fuel' := fuel'
    · omega
    apply agrees_rule
    intro other m smaller lexeme
    -- With a token less there is room for a goal of any rank.
    have room : goalsPerToken * m + other.rank < goalsPerToken * n + goal.rank := by
      have low := other.rank_lt
      unfold goalsPerToken at low ⊢
      omega
    exact ih other (by omega) (by omega) lexeme

def Goal.outcome (goal : Goal) : Parse Branch :=
  fun cursor => Goal.parse (goal.measure cursor + 1) goal cursor

/-- More fuel than the measure changes nothing. -/
theorem parse_eq_outcome {goal : Goal} {cursor : Cursor} {fuel : Nat}
    (enough : goal.measure cursor < fuel) :
    (Goal.parse fuel goal).run cursor = goal.outcome.run cursor :=
  (agrees_parse goal enough (Nat.lt_succ_self _) cursor.hand cursor rfl (Nat.le_refl _)).1

theorem agrees_outcome (goal : Goal) (lexeme : Lexeme) (n : Nat) :
    Agrees lexeme n goal.takes goal.outcome goal.outcome := by
  intro cursor hand few
  obtain ⟨-, fueled, takes⟩ := agrees_parse goal (Nat.lt_succ_self (goal.measure cursor))
    (Nat.lt_succ_self _) cursor.hand cursor rfl (Nat.le_refl _)
  refine ⟨rfl, fueled, fun a after run => ?_⟩
  have taken := takes a after run
  omega

theorem rule_eq_of_below {reach : Reach} {goal : Goal} {cursor : Cursor}
    (below : ∀ (other : Goal) (place : Cursor), other.measure place < goal.measure cursor →
      (reach other).run place = other.outcome.run place) :
    (goal.rule Goal.outcome).run cursor = (goal.rule reach).run cursor := by
  have agrees : Reach.Agrees cursor.left goal.rank Goal.outcome reach := by
    intro other m smaller lexeme place hand few
    obtain ⟨-, fueled, takes⟩ := agrees_outcome other lexeme m place hand few
    have lower : other.measure place < goal.measure cursor := by
      have low := other.rank_lt
      unfold Goal.measure goalsPerToken at *
      omega
    exact ⟨(below other place lower).symm, fueled, takes⟩
  exact (agrees_rule goal agrees cursor rfl (Nat.le_refl _)).1

theorem outcome_eq_rule (goal : Goal) : goal.outcome = goal.rule Goal.outcome := by
  funext cursor
  exact (rule_eq_of_below fun other place lower => parse_eq_outcome lower).symm

theorem rule_eq_outcome {reach : Reach} {goal : Goal} {cursor : Cursor}
    (below : ∀ (other : Goal) (place : Cursor), other.measure place < goal.measure cursor →
      (reach other).run place = other.outcome.run place) :
    (goal.rule reach).run cursor = goal.outcome.run cursor := by
  rw [outcome_eq_rule]
  exact (rule_eq_of_below below).symm

/-- Only the outcomes are what the rules make of them. -/
theorem eq_outcome_of_unfolds {reach : Reach} (unfolds : ∀ goal, reach goal = goal.rule reach) :
    reach = Goal.outcome := by
  have settled (bound : Nat) : ∀ (goal : Goal) (cursor : Cursor), goal.measure cursor < bound →
      (reach goal).run cursor = goal.outcome.run cursor := by
    induction bound with
    | zero => exact fun _ _ less => absurd less (Nat.not_lt_zero _)
    | succ bound ih =>
      intro goal cursor less
      rw [unfolds goal]
      exact rule_eq_outcome fun other place lower => ih other place (by omega)
  funext goal cursor
  exact settled _ goal cursor (Nat.lt_succ_self _)

theorem parseTree_eq_outcome (source : String) :
    parseTree source = do
      let cursor ← Cursor.start (lexResults source) source.utf8ByteSize
      let (tree, _) ← (Goal.outcome (.unit [])).run cursor
      return tree := by
  unfold parseTree parseResults
  cases started : Cursor.start (lexResults source) source.utf8ByteSize with
  | error e => simp only [bind, Except.bind]
  | ok cursor =>
    have few : cursor.left ≤ (lexResults source).length := Cursor.left_le_of_advance started
    have enough : (Goal.unit []).measure cursor <
        goalsPerToken * ((lexResults source).length + 2) := by
      have low := (Goal.unit []).rank_lt
      unfold Goal.measure goalsPerToken at *
      omega
    exact congrArg (· >>= fun answer => pure answer.1) (parse_eq_outcome enough)

theorem parseTree_ne_outOfFuel (source : String) : parseTree source ≠ .error .outOfFuel := by
  rw [parseTree_eq_outcome]
  cases started : Cursor.start (lexResults source) source.utf8ByteSize with
  | error e =>
    have fueled : Cursor.start (lexResults source) source.utf8ByteSize ≠ .error .outOfFuel :=
      Cursor.advance_ne_outOfFuel _
    rw [started] at fueled
    exact fun out => fueled (by cases out; rfl)
  | ok cursor =>
    have fueled := (agrees_outcome (.unit []) cursor.hand cursor.left cursor rfl
      (Nat.le_refl _)).2.1
    cases run : (Goal.outcome (.unit [])).run cursor with
    | error e =>
      rw [run] at fueled
      exact fun out => fueled (by simpa [bind, Except.bind, run] using out)
    | ok answer => simp [bind, Except.bind, run, pure, Except.pure]

/-- Reading a text as a program comes to an end, whatever the text is. -/
structure Parse.Ends (source : String) : Prop where
  /-- To reach a goal the rules ask for goals of a smaller measure only: it is all the same to
  them what other goals would give. -/
  descends : ∀ (reach : Reach) (goal : Goal) (cursor : Cursor),
    (∀ (other : Goal) (place : Cursor), other.measure place < goal.measure cursor →
      (reach other).run place = other.outcome.run place) →
    (goal.rule reach).run cursor = goal.outcome.run cursor
  /-- So the rules, which call each other, have one solution. -/
  solved : ∀ reach : Reach, (∀ goal, reach goal = goal.rule reach) ↔ reach = Goal.outcome
  /-- The loop over the parameters ends at the last token as well. -/
  parameters : ∀ limit done cursor, cursor.left < limit →
    (parameters limit done).run cursor = (parameters (cursor.left + 1) done).run cursor
  /-- In the solution nothing has run out of fuel, from any place. -/
  fueled : ∀ (goal : Goal) (cursor : Cursor), goal.outcome.run cursor ≠ .error .outOfFuel
  /-- The tree of the text is the solution at the first token. -/
  reads : parseTree source = do
    let cursor ← Cursor.start (lexResults source) source.utf8ByteSize
    let (tree, _) ← (Goal.outcome (.unit [])).run cursor
    return tree
  /-- There is code, or a mistake of the text. -/
  total : (∃ code, parse source = .ok code) ∨
    ∃ e : ParseError, parse source = .error e ∧ e ≠ .outOfFuel
  /-- Where there is code, all tokens have been taken. -/
  consumes : ∀ code, parse source = .ok code → ∃ tree first last tokens,
    code = .ofRose tree ∧ Cursor.start (lexResults source) source.utf8ByteSize = .ok first ∧
    (Goal.outcome (.unit [])).run first = .ok (tree, last) ∧
    tokenize source = .ok (tokens ++ [endToken source.utf8ByteSize]) ∧
    first.Moves (tokens.map (·.lexeme)) last ∧ last.hand = .eof

/-- Parsing ends on every text, with code for all its tokens or with a mistake. -/
theorem parsing_ends (source : String) : Parse.Ends source where
  descends := fun _ _ _ below => rule_eq_outcome below
  solved := by
    intro reach
    constructor
    · exact eq_outcome_of_unfolds
    · rintro rfl
      exact outcome_eq_rule
  parameters := by
    intro limit done cursor enough
    exact (agrees_parameters (Nat.zero_lt_of_lt enough) (Nat.le_of_lt enough) (Nat.succ_pos _)
      (Nat.le_succ _) done cursor rfl (Nat.le_refl _)).1
  fueled := fun goal cursor => (agrees_outcome goal cursor.hand cursor.left cursor rfl
    (Nat.le_refl _)).2.1
  reads := parseTree_eq_outcome source
  total := by
    have fueled := parseTree_ne_outOfFuel source
    unfold parse
    cases read : parseTree source with
    | ok tree => exact .inl ⟨_, rfl⟩
    | error e =>
      rw [read] at fueled
      exact .inr ⟨e, rfl, fun out => fueled (congrArg _ out)⟩
  consumes := by
    intro code parsed
    obtain ⟨tree, read, same⟩ := tree_of_parse parsed
    rw [parseTree_eq_outcome] at read
    cases started : Cursor.start (lexResults source) source.utf8ByteSize with
    | error e => simp [bind, Except.bind, started] at read
    | ok first =>
      rw [started] at read
      cases run : (Goal.outcome (.unit [])).run first with
      | error e => simp [bind, Except.bind, run] at read
      | ok answer =>
        obtain ⟨other, last⟩ := answer
        obtain rfl : other = tree := by
          simpa [bind, Except.bind, run, pure, Except.pure] using read
        have fed := (parse_eq_outcome (Nat.lt_succ_self ((Goal.unit []).measure first))).trans run
        obtain ⟨moved, moves, -, ended, -⟩ :=
          faithful_parse _ (.unit []) first.hand (by simp [Goal.Primed]) first other last rfl fed
        obtain ⟨tokens, lexed, lexemes⟩ := Cursor.tokens_of_moves started
          (fun token member => ne_eof_of_mem_resultsFrom member) moves ended
        refine ⟨other, first, last, tokens, same, rfl, run, tokenize_of_results lexed, ?_, ended⟩
        rwa [lexemes]

end StepScript
