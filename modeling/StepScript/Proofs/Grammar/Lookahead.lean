import StepScript.Proofs.Grammar.Termination

/-! How far the parser looks.

From the place of the cursor on, the results of the lexer are a sequence that does not end: behind
the last of them is the end of the text, again and again. `Local` says of a computation that what
it does is settled by the results up to the one that it gets to: from any place where these read
the same, it succeeds with the same answer or fails for the same reason at the same result. One
lemma for each rule shows that the rules keep to this, so no rule looks behind the token at hand.
-/

set_option autoImplicit false

namespace StepScript

def reading : Except LexError Token → Except LexFault Lexeme
  | .ok token => .ok token.lexeme
  | .error e => .error e.fault

/-- Both mistakes are of one kind and speak of the same things, perhaps at different places. -/
inductive ParseError.Like : ParseError → ParseError → Prop where
  | unexpected (wanted : Wanted) (found : String) (span span' : Span) :
    Like (.unexpected wanted found span) (.unexpected wanted found span')
  | lexical {e e' : LexError} (same : e.fault = e'.fault) : Like (.lexical e) (.lexical e')

/-- The mistake is the result, or the result is a token and the mistake is at its span. -/
inductive ParseError.Concerns : ParseError → Except LexError Token → Prop where
  | token (wanted : Wanted) (found : String) (token : Token) :
    Concerns (.unexpected wanted found token.span) (.ok token)
  | fault (e : LexError) : Concerns (.lexical e) (.error e)

theorem ParseError.Concerns.unique {e e' : ParseError} {result : Except LexError Token}
    (concerns : e.Concerns result) (concerns' : e'.Concerns result) (like : e.Like e') : e = e' := by
  cases concerns with
  | token wanted found token =>
    cases concerns'
    cases like
    rfl
  | fault e =>
    cases concerns'
    rfl

namespace Cursor

/-- The result at a distance from the cursor. The token at hand has the distance 0. -/
def result (cursor : Cursor) : Nat → Except LexError Token
  | 0 => .ok cursor.current
  | k + 1 => cursor.rest[k]?.getD (.ok (endToken cursor.size))

def Shares (k : Nat) (cursor other : Cursor) : Prop :=
  ∀ j ≤ k, reading (cursor.result j) = reading (other.result j)

inductive Advances : Nat → Cursor → Cursor → Prop where
  | refl (cursor : Cursor) : Advances 0 cursor cursor
  | step {k : Nat} {cursor next last : Cursor} (advanced : cursor.advance = .ok next)
    (more : Advances k next last) : Advances (k + 1) cursor last

/-- The mistake is found at the result at this distance: it is one of the lexer, or the token there
is not what is wanted. -/
inductive Refuses : Nat → Cursor → ParseError → Prop where
  | unexpected (wanted : Wanted) (found : String) (cursor : Cursor) :
    Refuses 0 cursor (.unexpected wanted found cursor.current.span)
  | lexical {cursor : Cursor} {e : LexError} (wrong : cursor.advance = .error (.lexical e)) :
    Refuses 1 cursor (.lexical e)
  | step {k : Nat} {cursor next : Cursor} {e : ParseError} (advanced : cursor.advance = .ok next)
    (later : Refuses k next e) : Refuses (k + 1) cursor e

section

variable {k m : Nat} {cursor next middle last other : Cursor} {e : ParseError}

theorem result_of_advance (advanced : cursor.advance = .ok next) (j : Nat) :
    next.result j = cursor.result (j + 1) := by
  obtain ⟨current, rest, size⟩ := cursor
  cases rest with
  | nil =>
    cases advanced
    cases j <;> rfl
  | cons result rest =>
    cases result with
    | error e => cases advanced
    | ok token =>
      cases advanced
      cases j <;> rfl

theorem advance_eq (cursor : Cursor) :
    (∃ next, cursor.advance = .ok next ∧ ∃ token, cursor.result 1 = .ok token) ∨
      ∃ e, cursor.advance = .error (.lexical e) ∧ cursor.result 1 = .error e := by
  obtain ⟨current, rest, size⟩ := cursor
  cases rest with
  | nil => exact .inl ⟨_, rfl, _, rfl⟩
  | cons result rest =>
    cases result with
    | ok token => exact .inl ⟨_, rfl, _, rfl⟩
    | error e => exact .inr ⟨e, rfl, rfl⟩

theorem Shares.mono {j : Nat} (shares : Shares k cursor other) (less : j ≤ k) :
    Shares j cursor other :=
  fun place below => shares place (Nat.le_trans below less)

theorem Shares.hand (shares : Shares k cursor other) : cursor.hand = other.hand :=
  Except.ok.inj (shares 0 (Nat.zero_le k))

theorem Advances.trans (first : Advances k cursor middle) (second : Advances m middle last) :
    Advances (k + m) cursor last := by
  induction first with
  | refl => rwa [Nat.zero_add]
  | step advanced _ ih =>
    rw [Nat.add_right_comm]
    exact .step advanced (ih second)

theorem Advances.refuses (first : Advances k cursor middle) (refused : Refuses m middle e) :
    Refuses (k + m) cursor e := by
  induction first with
  | refl => rwa [Nat.zero_add]
  | step advanced _ ih =>
    rw [Nat.add_right_comm]
    exact .step advanced (ih refused)

theorem Advances.result (advances : Advances k cursor last) (j : Nat) :
    last.result j = cursor.result (k + j) := by
  induction advances with
  | refl => rw [Nat.zero_add]
  | step advanced _ ih => rw [ih, result_of_advance advanced, Nat.add_right_comm]

/-- What is shared beyond the places that both have got to is still shared there. -/
theorem Shares.advances {last' : Cursor} (shares : Shares (k + m) cursor other)
    (advances : Advances k cursor last) (advances' : Advances k other last') :
    Shares m last last' := by
  intro j below
  rw [advances.result, advances'.result]
  exact shares _ (Nat.add_le_add_left below k)

/-- The mistake concerns the result that it is found at, and the ones before are tokens. -/
theorem Refuses.concerns (refused : Refuses k cursor e) :
    e.Concerns (cursor.result k) ∧ ∀ j < k, ∃ token, cursor.result j = .ok token := by
  -- By induction on the tokens that have been taken before the mistake.
  induction refused with
  | unexpected wanted found cursor => exact ⟨.token wanted found cursor.current, nofun⟩
  | @lexical cursor e wrong =>
    rcases cursor.advance_eq with ⟨next, advanced, -⟩ | ⟨e', wrong', first⟩
    · rw [wrong] at advanced
      cases advanced
    · rw [wrong] at wrong'
      cases wrong'
      rw [first]
      refine ⟨.fault e, fun j below => ⟨cursor.current, ?_⟩⟩
      rw [Nat.lt_one_iff.mp below]
      rfl
  | @step k cursor next e advanced later ih =>
    obtain ⟨concerns, before⟩ := ih
    rw [result_of_advance advanced] at concerns
    refine ⟨concerns, fun j below => ?_⟩
    cases j with
    | zero => exact ⟨cursor.current, rfl⟩
    | succ j =>
      rw [← result_of_advance advanced]
      exact before j (Nat.lt_of_succ_lt_succ below)

end

end Cursor

open Cursor Branch Parse

namespace Parse

variable {α β : Type}

/-- What `p` does from a place is settled by the results up to the one that it gets to: where these
read the same, `q` gives the same answer, or finds the same mistake at the same result. -/
structure Local (p q : Parse α) : Prop where
  ok : ∀ {cursor after : Cursor} {a : α}, p.run cursor = .ok (a, after) →
    ∃ k, Advances k cursor after ∧ ∀ other, Shares k cursor other →
      ∃ after', q.run other = .ok (a, after') ∧ Advances k other after'
  error : ∀ {cursor : Cursor} {e : ParseError}, p.run cursor = .error e → e ≠ .outOfFuel →
    ∃ k, Refuses k cursor e ∧ ∀ other, Shares k cursor other →
      ∃ e', q.run other = .error e' ∧ Refuses k other e' ∧ e.Like e'

theorem run_advance (cursor : Cursor) :
    Parse.advance.run cursor = cursor.advance.map fun next => ((), next) := by
  simp only [Parse.advance, StateT.run_bind, StateT.run_get, pure_bind]
  cases cursor.advance <;> rfl

namespace Local

theorem pure (a : α) : Local (Pure.pure a) (Pure.pure a) where
  ok := by
    intro cursor after b run
    cases run
    exact ⟨0, .refl cursor, fun other _ => ⟨other, rfl, .refl other⟩⟩
  error := nofun

theorem outOfFuel (q : Parse α) : Local (MonadExcept.throw .outOfFuel) q where
  ok := nofun
  error := by
    intro cursor e run fueled
    cases run
    exact absurd rfl fueled

theorem bind {p q : Parse α} {f g : α → Parse β} (first : Local p q)
    (next : ∀ a, Local (f a) (g a)) : Local (p >>= f) (q >>= g) where
  -- How far both parts get adds up, and in the other text the second part starts where the
  -- first one has stopped as well.
  ok := by
    intro cursor after b run
    rw [StateT.run_bind] at run
    cases middle : p.run cursor with
    | error e =>
      rw [middle] at run
      cases run
    | ok answer =>
      obtain ⟨a, between⟩ := answer
      rw [middle] at run
      obtain ⟨k, advances, same⟩ := first.ok middle
      obtain ⟨m, more, same'⟩ := (next a).ok run
      refine ⟨k + m, advances.trans more, fun other shares => ?_⟩
      obtain ⟨between', run', advances'⟩ := same other (shares.mono (Nat.le_add_right k m))
      obtain ⟨after', run'', more'⟩ := same' between' (shares.advances advances advances')
      refine ⟨after', ?_, advances'.trans more'⟩
      rw [StateT.run_bind, run']
      exact run''
  error := by
    intro cursor e run fueled
    rw [StateT.run_bind] at run
    cases middle : p.run cursor with
    | error e' =>
      rw [middle] at run
      cases run
      obtain ⟨k, refused, same⟩ := first.error middle fueled
      refine ⟨k, refused, fun other shares => ?_⟩
      obtain ⟨e', run', refused', like⟩ := same other shares
      refine ⟨e', ?_, refused', like⟩
      rw [StateT.run_bind, run']
      rfl
    | ok answer =>
      obtain ⟨a, between⟩ := answer
      rw [middle] at run
      obtain ⟨k, advances, same⟩ := first.ok middle
      obtain ⟨m, refused, same'⟩ := (next a).error run fueled
      refine ⟨k + m, advances.refuses refused, fun other shares => ?_⟩
      obtain ⟨between', run', advances'⟩ := same other (shares.mono (Nat.le_add_right k m))
      obtain ⟨e', run'', refused', like⟩ := same' between' (shares.advances advances advances')
      refine ⟨e', ?_, advances'.refuses refused', like⟩
      rw [StateT.run_bind, run']
      exact run''

theorem ite {c : Prop} [Decidable c] {p p' q q' : Parse α} (yes : Local p q) (no : Local p' q') :
    Local (if c then p else p') (if c then q else q') := by
  split
  · exact yes
  · exact no

/-! The steps of the cursor. -/

theorem peek : Local Parse.peek Parse.peek where
  ok := by
    intro cursor after lexeme run
    cases run
    refine ⟨0, .refl cursor, fun other shares => ⟨other, ?_, .refl other⟩⟩
    exact congrArg (fun hand => Except.ok (hand, other)) shares.hand.symm
  error := nofun

theorem advance : Local Parse.advance Parse.advance where
  -- Advancing looks at one more result, and the other text has the same one there.
  ok := by
    intro cursor after a run
    rw [run_advance] at run
    rcases cursor.advance_eq with ⟨next, advanced, token, first⟩ | ⟨e, wrong, -⟩
    · rw [advanced] at run
      cases run
      refine ⟨1, .step advanced (.refl after), fun other shares => ?_⟩
      rcases other.advance_eq with ⟨next', advanced', -⟩ | ⟨e, -, first'⟩
      · rw [run_advance, advanced']
        exact ⟨next', rfl, .step advanced' (.refl next')⟩
      · have same := shares 1 (Nat.le_refl 1)
        rw [first, first'] at same
        cases same
    · rw [wrong] at run
      cases run
  error := by
    intro cursor e run _
    rw [run_advance] at run
    rcases cursor.advance_eq with ⟨next, advanced, -⟩ | ⟨fault, wrong, first⟩
    · rw [advanced] at run
      cases run
    · rw [wrong] at run
      cases run
      refine ⟨1, .lexical wrong, fun other shares => ?_⟩
      have same := shares 1 (Nat.le_refl 1)
      rw [first] at same
      rcases other.advance_eq with ⟨next', -, token, first'⟩ | ⟨fault', wrong', first'⟩
      · rw [first'] at same
        cases same
      · rw [first'] at same
        refine ⟨.lexical fault', ?_, .lexical wrong', .lexical (Except.error.inj same)⟩
        rw [run_advance, wrong']
        rfl

theorem unexpected (wanted : Wanted) (found : Lexeme → String) :
    let refuse : Parse α := do
      let token := (← get).current
      throw (.unexpected wanted (found token.lexeme) token.span)
    Local refuse refuse where
  ok := nofun
  error := by
    intro cursor e run _
    cases run
    refine ⟨0, .unexpected wanted (found cursor.hand) cursor, fun other shares => ?_⟩
    refine ⟨.unexpected wanted (found other.hand) other.current.span, rfl, .unexpected .., ?_⟩
    rw [← shares.hand]
    exact .unexpected ..

theorem fail (wanted : Wanted) : Local (Parse.fail wanted : Parse α) (Parse.fail wanted) :=
  unexpected wanted Lexeme.description

theorem at? (p : Punctuator) : Local (Parse.at? p) (Parse.at? p) := by
  apply bind peek
  intro lexeme
  cases lexeme <;> exact pure _

theorem atKeyword? (k : Keyword) : Local (Parse.atKeyword? k) (Parse.atKeyword? k) := by
  apply bind peek
  intro lexeme
  cases lexeme <;> exact pure _

theorem eat (p : Punctuator) : Local (Parse.eat p) (Parse.eat p) :=
  bind (at? p) fun _ => ite (bind advance fun _ => pure true) (pure false)

theorem eatKeyword (k : Keyword) : Local (Parse.eatKeyword k) (Parse.eatKeyword k) :=
  bind (atKeyword? k) fun _ => ite (bind advance fun _ => pure true) (pure false)

theorem expect (p : Punctuator) : Local (Parse.expect p) (Parse.expect p) :=
  bind (eat p) fun _ => ite (pure ()) (fail _)

theorem expectKeyword (k : Keyword) : Local (Parse.expectKeyword k) (Parse.expectKeyword k) :=
  bind (eatKeyword k) fun _ => ite (pure ()) (fail _)

theorem expectIdentifier : Local Parse.expectIdentifier Parse.expectIdentifier := by
  apply bind peek
  intro lexeme
  cases lexeme with
  | identifier name => exact bind advance fun _ => pure name
  | _ => exact fail _

theorem expectPropertyName : Local Parse.expectPropertyName Parse.expectPropertyName := by
  apply bind peek
  intro lexeme
  cases lexeme with
  | identifier | keyword | number | string => exact bind (pure _) fun _ => bind advance fun _ => pure _
  | _ => exact fail _

theorem checkAssignable (target : Branch) :
    Local (StepScript.checkAssignable target) (StepScript.checkAssignable target) :=
  ite (pure ()) (unexpected .assignable fun _ => target.value.kindName)

theorem checkTarget (o : Operation) (target : Branch) :
    Local (StepScript.checkTarget o target) (StepScript.checkTarget o target) :=
  ite (checkAssignable target) (pure ())

end Local

end Parse

/-! ## Parameters -/

/-- The parameters with the bound that is enough for what is left. -/
def parametersLeft (done : List Branch) : Parse (List Branch) :=
  fun cursor => parameters (cursor.left + 1) done cursor

theorem agrees_parametersLeft {lexeme : Lexeme} {n limit : Nat} (some : 0 < limit)
    (enough : n ≤ limit) (done : List Branch) :
    Agrees lexeme n 1 (parameters limit done) (parametersLeft done) := by
  intro cursor hand few
  have whole := agrees_parameters some enough (Nat.succ_pos n) (Nat.le_succ n) done cursor hand few
  have less := agrees_parameters some (Nat.le_trans few enough) (Nat.succ_pos cursor.left)
    (Nat.le_succ _) done cursor hand (Nat.le_refl _)
  exact ⟨less.1, whole.2⟩

def parametersStep (more : List Branch → Parse (List Branch)) (done : List Branch) :
    Parse (List Branch) := do
  let name ← expectIdentifier
  if ← eat .comma then
    more (lit (.string name) :: done)
  else
    expect .closeParen
    return (lit (.string name) :: done).reverse

theorem parametersLeft_eq (done : List Branch) :
    parametersLeft done = parametersStep parametersLeft done := by
  funext cursor
  have agrees : Agrees cursor.hand cursor.left 1 (parametersStep (parameters cursor.left) done)
      (parametersStep parametersLeft done) := by
    apply Agrees.expectIdentifier
    intro name hand m less
    apply Agrees.eat
    · -- A name and a comma have been taken, so the bound for what was left is enough.
      intro hand m' less'
      exact (agrees_parametersLeft (by omega) (by omega) _).mono (by omega)
    · exact .expect fun _ _ _ => .pure _
  exact (agrees cursor rfl (Nat.le_refl _)).1

theorem local_parameters (limit : Nat) (done : List Branch) :
    Local (parameters limit done) (parametersLeft done) := by
  induction limit generalizing done with
  | zero => exact .outOfFuel _
  | succ limit ih =>
    rw [parametersLeft_eq]
    refine .bind .expectIdentifier fun name => .bind (.eat _) fun _ => .ite (ih _) ?_
    exact .bind (.expect _) fun _ => .pure _

theorem local_parameterList : Local parameterList parameterList := by
  have bounded : (do parameters ((← get).rest.length + 1) [] : Parse (List Branch)) =
      parametersLeft [] := by
    funext cursor
    have enough := cursor.left_le
    exact (agrees_parametersLeft (Nat.succ_pos _) enough [] cursor rfl (Nat.le_refl _)).1
  have enough : Local (parametersLeft []) (parametersLeft []) := by
    constructor
    · intro cursor after a run
      exact (local_parameters (cursor.left + 1) []).ok run
    · intro cursor e run
      exact (local_parameters (cursor.left + 1) []).error run
  refine .bind (.expect _) fun _ => .bind (.eat _) fun _ => .ite (.pure _) ?_
  rw [bounded]
  exact enough

theorem local_functionName : Local functionName functionName := by
  apply Local.bind .peek
  intro lexeme
  cases lexeme with
  | identifier => exact .bind .expectIdentifier fun _ => .pure _
  | _ => exact .pure _

theorem local_literalRule (value : Value) : Local (literalRule value) (literalRule value) :=
  .bind .advance fun _ => .pure _

/-! ## Rules of expressions -/

section

variable {reach reach' : Reach} (all : ∀ goal, Local (reach goal) (reach' goal))
include all

theorem local_anyExpression : Local (anyExpression reach) (anyExpression reach') :=
  all (.expression 0)

theorem local_expressionRule (least : Nat) :
    Local (expressionRule reach least) (expressionRule reach' least) :=
  .bind (all .operand) fun _ => all (.operators _ _)

theorem local_middleOperands (o : Operation) :
    Local (middleOperands reach o) (middleOperands reach' o) := by
  apply Local.ite
  · exact .bind (local_anyExpression all) fun _ => .bind (.expect _) fun _ => .pure _
  · exact .pure _

theorem local_operatorsRule (least : Nat) (left : Branch) :
    Local (operatorsRule reach least left) (operatorsRule reach' least left) := by
  apply Local.bind .peek
  intro lexeme
  cases lexeme.between? with
  | none => exact .pure _
  | some o =>
    refine .ite (.pure _) (.bind (.checkTarget o left) fun _ => .bind .advance fun _ => ?_)
    refine .bind (local_middleOperands all o) fun middle => ?_
    exact .bind (all (.expression _)) fun _ => all (.operators _ _)

theorem local_operandRule : Local (operandRule reach) (operandRule reach') := by
  apply Local.bind .peek
  intro lexeme
  cases lexeme.before? with
  | some o =>
    refine .bind .advance fun _ => .bind (all .operand) fun inner => ?_
    exact .bind (.checkTarget o inner) fun _ => .pure _
  | none => exact .bind (all .primary) fun _ => all (.suffixes _)

theorem local_memberAccess (base : Branch) :
    Local (memberAccess reach base) (memberAccess reach' base) := by
  refine .bind (.eat _) fun _ => .ite (.bind .expectPropertyName fun _ => .pure _) ?_
  refine .bind (.expect _) fun _ => .bind (local_anyExpression all) fun _ => ?_
  exact .bind (.expect _) fun _ => .pure _

theorem local_argumentList (o : Operation) (done : List Branch) :
    Local (argumentList reach o done) (argumentList reach' o done) :=
  .bind (.eat _) fun _ => .ite (.pure _) (all (.arguments _ _))

theorem local_suffixesRule (base : Branch) :
    Local (suffixesRule reach base) (suffixesRule reach' base) := by
  have accesses : Local (memberAccess reach base >>= fun access => reach (.suffixes access))
      (memberAccess reach' base >>= fun access => reach' (.suffixes access)) :=
    .bind (local_memberAccess all base) fun _ => all (.suffixes _)
  have steps (o : Operation) : Local
      (checkAssignable base >>= fun _ => advance >>= fun _ => pure (op o [base]))
      (checkAssignable base >>= fun _ => advance >>= fun _ => pure (op o [base])) :=
    .bind (.checkAssignable base) fun _ => .bind .advance fun _ => .pure _
  apply Local.bind .peek
  intro lexeme
  split
  case h_1 => exact accesses
  case h_2 => exact accesses
  case h_3 =>
    exact .bind .advance fun _ => .bind (local_argumentList all _ _) fun _ => all (.suffixes _)
  case h_4 => exact steps .postIncrement
  case h_5 => exact steps .postDecrement
  case h_6 => exact .pure _

theorem local_argumentsRule (o : Operation) (done : List Branch) :
    Local (argumentsRule reach o done) (argumentsRule reach' o done) := by
  refine .bind (local_anyExpression all) fun _ => .bind (.eat _) fun _ => ?_
  exact .ite (all (.arguments _ _)) (.bind (.expect _) fun _ => .pure _)

theorem local_groupingRule : Local (groupingRule reach) (groupingRule reach') := by
  refine .bind (.expect _) fun _ => .bind (local_anyExpression all) fun _ => ?_
  exact .bind (.expect _) fun _ => .pure _

theorem local_objectEntry : Local (objectEntry reach) (objectEntry reach') := by
  have value (f : Branch → Branch × Branch) : Local
      (anyExpression reach >>= fun value => pure (f value))
      (anyExpression reach' >>= fun value => pure (f value)) :=
    .bind (local_anyExpression all) fun _ => .pure _
  refine .bind (.eat _) fun _ => .ite ?_ (.bind .peek fun lexeme => ?_)
  · refine .bind (local_anyExpression all) fun _ => .bind (.expect _) fun _ => ?_
    exact .bind (.expect _) fun _ => value _
  · refine .bind .expectPropertyName fun name => .bind (.eat _) fun _ => ?_
    exact .ite (value _) (.ite (.pure _) (.fail _))

theorem local_entriesRule (done : List Branch) :
    Local (entriesRule reach done) (entriesRule reach' done) := by
  refine .bind (local_objectEntry all) fun _ => .bind (.eat _) fun _ => ?_
  exact .ite (all (.entries _)) (.bind (.expect _) fun _ => .pure _)

theorem local_objectRule : Local (objectRule reach) (objectRule reach') :=
  .bind (.expect _) fun _ => .bind (.eat _) fun _ => .ite (.pure _) (all (.entries _))

theorem local_arrayElement : Local (arrayElement reach) (arrayElement reach') := by
  refine .bind (.at? _) fun _ => .bind (.at? _) fun _ => ?_
  exact .ite (.pure _) (local_anyExpression all)

theorem local_elementsRule (done : List Branch) :
    Local (elementsRule reach done) (elementsRule reach' done) := by
  refine .bind (local_arrayElement all) fun _ => .bind (.eat _) fun _ => ?_
  exact .ite (all (.elements _)) (.bind (.expect _) fun _ => .pure _)

theorem local_arrayRule : Local (arrayRule reach) (arrayRule reach') :=
  .bind (.expect _) fun _ => .bind (.eat _) fun _ => .ite (.pure _) (all (.elements _))

theorem local_functionRule : Local (functionRule reach) (functionRule reach') := by
  refine .bind (.expectKeyword _) fun _ => .bind local_functionName fun _ => ?_
  exact .bind local_parameterList fun _ => .bind (all .block) fun _ => .pure _

theorem local_constructRule : Local (constructRule reach) (constructRule reach') := by
  refine .bind (.expectKeyword _) fun _ => .bind (all .primary) fun _ => ?_
  refine .bind (all (.callee _)) fun _ => .bind (.eat _) fun _ => ?_
  exact .ite (local_argumentList all _ _) (.pure _)

theorem local_calleeRule (base : Branch) :
    Local (calleeRule reach base) (calleeRule reach' base) := by
  refine .bind (.at? _) fun _ => .bind (.at? _) fun _ => .ite ?_ (.pure _)
  exact .bind (local_memberAccess all base) fun _ => all (.callee _)

theorem local_primaryRule : Local (primaryRule reach) (primaryRule reach') := by
  apply Local.bind .peek
  intro lexeme
  split
  case h_7 => exact .bind .expectIdentifier fun _ => .pure _
  case h_8 => exact local_groupingRule all
  case h_9 => exact local_objectRule all
  case h_10 => exact local_arrayRule all
  case h_11 => exact local_functionRule all
  case h_12 => exact local_constructRule all
  case h_13 => exact .fail _
  all_goals exact local_literalRule _

end

/-! ## Rules of statements -/

section

variable {reach reach' : Reach} (all : ∀ goal, Local (reach goal) (reach' goal))
include all

theorem local_blockRule : Local (blockRule reach) (blockRule reach') :=
  .bind (.expect _) fun _ => all (.blockRest [])

theorem local_blockRestRule (done : List Branch) :
    Local (blockRestRule reach done) (blockRestRule reach' done) := by
  refine .bind (.at? _) fun _ => .ite (.bind .advance fun _ => .pure _) (.bind .peek fun lexeme => ?_)
  cases lexeme with
  | eof => exact .fail _
  | _ => exact .bind (all .statement) fun _ => all (.blockRest _)

theorem local_unitRule (done : List Branch) :
    Local (unitRule reach done) (unitRule reach' done) := by
  apply Local.bind .peek
  intro lexeme
  cases lexeme with
  | eof => exact .pure _
  | _ => exact .bind (all .statement) fun _ => all (.unit _)

theorem local_condition : Local (condition reach) (condition reach') := by
  refine .bind (.expect _) fun _ => .bind (local_anyExpression all) fun _ => ?_
  exact .bind (.expect _) fun _ => .pure _

theorem local_ifRule : Local (ifRule reach) (ifRule reach') := by
  refine .bind .advance fun _ => .bind (local_condition all) fun _ => ?_
  refine .bind (all .statement) fun _ => .bind (.eatKeyword _) fun _ => .ite ?_ (.pure _)
  exact .bind (all .statement) fun _ => .pure _

theorem local_whileRule : Local (whileRule reach) (whileRule reach') := by
  refine .bind .advance fun _ => .bind (local_condition all) fun _ => ?_
  exact .bind (all .statement) fun _ => .pure _

theorem local_doRule : Local (doRule reach) (doRule reach') := by
  refine .bind .advance fun _ => .bind (all .statement) fun _ => ?_
  refine .bind (.expectKeyword _) fun _ => .bind (local_condition all) fun _ => ?_
  exact .bind (.expect _) fun _ => .pure _

theorem local_declarationRule : Local (declarationRule reach) (declarationRule reach') := by
  refine .bind (.expectKeyword _) fun _ => .bind .expectIdentifier fun _ => ?_
  refine .bind (.eat _) fun _ => .ite ?_ (.pure _)
  exact .bind (local_anyExpression all) fun _ => .pure _

theorem local_clause : Local (clause reach) (clause reach') :=
  .bind (.atKeyword? _) fun _ => .ite (local_declarationRule all) (local_anyExpression all)

theorem local_firstClause : Local (firstClause reach) (firstClause reach') :=
  .bind (.at? _) fun _ => .ite (.pure _) (local_clause all)

theorem local_optionalClause (stop : Punctuator) :
    Local (optionalClause reach stop) (optionalClause reach' stop) :=
  .bind (.at? _) fun _ => .ite (.pure _) (local_anyExpression all)

theorem local_forRule : Local (forRule reach) (forRule reach') := by
  refine .bind .advance fun _ => .bind (.expect _) fun _ => ?_
  refine .bind (local_firstClause all) fun _ => .bind (.expect _) fun _ => ?_
  refine .bind (local_optionalClause all _) fun _ => .bind (.expect _) fun _ => ?_
  refine .bind (local_optionalClause all _) fun _ => .bind (.expect _) fun _ => ?_
  exact .bind (all .statement) fun _ => .pure _

theorem local_returnRule : Local (returnRule reach) (returnRule reach') := by
  refine .bind .advance fun _ => .bind (.at? _) fun _ => .ite ?_ ?_
  · exact .bind (.expect _) fun _ => .pure _
  · exact .bind (local_anyExpression all) fun _ => .bind (.expect _) fun _ => .pure _

theorem local_throwRule : Local (throwRule reach) (throwRule reach') := by
  refine .bind .advance fun _ => .bind (local_anyExpression all) fun _ => ?_
  exact .bind (.expect _) fun _ => .pure _

omit all in
theorem local_jumpRule (statement : Statement) :
    Local (jumpRule statement) (jumpRule statement) :=
  .bind .advance fun _ => .bind (.expect _) fun _ => .pure _

theorem local_expressionStatementRule :
    Local (expressionStatementRule reach) (expressionStatementRule reach') := by
  refine .bind (local_clause all) fun inner => .bind (.at? _) fun _ => ?_
  exact .ite (.pure _) (.bind (.expect _) fun _ => .pure _)

theorem local_statementRule : Local (statementRule reach) (statementRule reach') := by
  apply Local.bind .peek
  intro lexeme
  split
  case h_1 => exact local_blockRule all
  case h_2 => exact local_ifRule all
  case h_3 => exact local_whileRule all
  case h_4 => exact local_doRule all
  case h_5 => exact local_forRule all
  case h_6 => exact local_returnRule all
  case h_7 => exact local_throwRule all
  case h_8 => exact local_jumpRule .breakOut
  case h_9 => exact local_jumpRule .continueOn
  case h_10 => exact local_expressionStatementRule all

/-- No rule looks further than the goals that it asks for. -/
theorem local_rule (goal : Goal) : Local (goal.rule reach) (goal.rule reach') := by
  cases goal with
  | unit done => exact local_unitRule all done
  | statement => exact local_statementRule all
  | block => exact local_blockRule all
  | blockRest done => exact local_blockRestRule all done
  | expression least => exact local_expressionRule all least
  | operators least left => exact local_operatorsRule all least left
  | operand => exact local_operandRule all
  | suffixes base => exact local_suffixesRule all base
  | primary => exact local_primaryRule all
  | callee base => exact local_calleeRule all base
  | arguments o done => exact local_argumentsRule all o done
  | entries done => exact local_entriesRule all done
  | elements done => exact local_elementsRule all done

end

/-! ## All goals -/

theorem local_parse (fuel : Nat) (goal : Goal) : Local (goal.parse fuel) goal.outcome := by
  induction fuel generalizing goal with
  | zero => exact .outOfFuel _
  | succ fuel ih =>
    rw [outcome_eq_rule]
    exact local_rule ih goal

/-- What a goal gives is settled by the results up to the one that it gets to. -/
theorem local_outcome (goal : Goal) : Local goal.outcome goal.outcome where
  ok := fun {cursor} _ _ run => (local_parse (goal.measure cursor + 1) goal).ok run
  error := fun {cursor} _ run => (local_parse (goal.measure cursor + 1) goal).error run

end StepScript
