import StepScript.Grammar.Rules

/-! What is read between two places of the cursor.

`Moves` says that the cursor gets from one place to another over certain tokens.
`Parse.Reads` looks back from a computation that has succeeded: its result, the
tokens that it moved over and the token at hand afterwards meet a condition.
`Parse.Runs` looks ahead: from a place with known tokens the computation succeeds.
-/

set_option autoImplicit false

namespace StepScript

namespace Cursor

def hand (cursor : Cursor) : Lexeme :=
  cursor.current.lexeme

/-- From the first place the cursor gets to the second over these tokens, none of
which is the end. -/
inductive Moves : Cursor → List Lexeme → Cursor → Prop where
  | refl (cursor : Cursor) : Moves cursor [] cursor
  | step {cursor next last : Cursor} {lexemes : List Lexeme} (inside : cursor.hand ≠ .eof)
    (advanced : cursor.advance = .ok next) (more : Moves next lexemes last) :
    Moves cursor (cursor.hand :: lexemes) last

structure Step (first : Cursor) (lexeme : Lexeme) (next : Cursor) : Prop where
  hand : first.hand = lexeme
  advanced : first.advance = .ok next

namespace Moves

variable {first middle last : Cursor} {front back : List Lexeme}

theorem trans (start : Moves first front middle) (rest : Moves middle back last) :
    Moves first (front ++ back) last := by
  induction start with
  | refl => exact rest
  | step inside advanced _ ih => exact .step inside advanced (ih rest)

theorem split (moves : Moves first (front ++ back) last) :
    ∃ middle, Moves first front middle ∧ Moves middle back last := by
  induction front generalizing first with
  | nil => exact ⟨first, .refl first, moves⟩
  | cons lexeme front ih =>
    cases moves with
    | step inside advanced more =>
      obtain ⟨middle, start, rest⟩ := ih more
      exact ⟨middle, .step inside advanced start, rest⟩

theorem eq_of_nil (moves : Moves first [] last) : first = last := by
  cases moves
  rfl

theorem uncons {lexeme : Lexeme} (moves : Moves first (lexeme :: back) last) :
    ∃ next, Step first lexeme next ∧ Moves next back last := by
  cases moves with
  | step _ advanced more => exact ⟨_, ⟨rfl, advanced⟩, more⟩

end Moves

theorem advance_eq_start (cursor : Cursor) : cursor.advance = start cursor.rest cursor.size := by
  obtain ⟨current, rest, size⟩ := cursor
  cases rest with
  | nil => rfl
  | cons result rest => cases result <;> rfl

/-- A cursor that has got to the end has moved over all results. -/
theorem tokens_of_moves {results : List (Except LexError Token)} {size : Nat}
    {first last : Cursor} {moved : List Lexeme} (started : start results size = .ok first)
    (inside : ∀ token, .ok token ∈ results → token.lexeme ≠ .eof)
    (moves : Moves first moved last) (ended : last.hand = .eof) :
    ∃ tokens : List Token, results = tokens.map .ok ∧ tokens.map (·.lexeme) = moved := by
  -- The induction is on the moves. The results lose their first token with each of them.
  induction moves generalizing results size with
  | refl cursor =>
    cases results with
    | nil => exact ⟨[], rfl, rfl⟩
    | cons result rest =>
      cases result with
      | error e => cases started
      | ok token =>
        cases started
        exact absurd ended (inside token (by simp))
  | step within advanced more ih =>
    cases results with
    | nil =>
      cases started
      exact absurd rfl within
    | cons result rest =>
      cases result with
      | error e => cases started
      | ok token =>
        cases started
        rw [advance_eq_start] at advanced
        obtain ⟨tokens, same, lexemes⟩ :=
          ih advanced (fun token member => inside token (by simp [member])) ended
        exact ⟨token :: tokens, by simpa using same, by simpa [hand] using lexemes⟩

theorem moves_of_tokens (tokens : List Token) (size : Nat)
    (inside : ∀ token ∈ tokens, token.lexeme ≠ .eof) :
    ∃ first last, start (tokens.map .ok) size = .ok first ∧
      Moves first (tokens.map (·.lexeme)) last ∧ last.hand = .eof := by
  induction tokens with
  | nil => exact ⟨_, _, rfl, .refl _, rfl⟩
  | cons token tokens ih =>
    obtain ⟨first, last, started, moves, ended⟩ :=
      ih fun token member => inside token (by simp [member])
    refine ⟨⟨token, tokens.map .ok, size⟩, last, rfl, ?_, ended⟩
    exact .step (inside token (by simp)) ((advance_eq_start _).trans started) moves

end Cursor

open Cursor

namespace Parse

variable {α β : Type}

/-- Where `lexeme` is at hand and `p` succeeds, the tokens that it has moved over,
its result and the token at hand afterwards satisfy `Q`. -/
def Reads (p : Parse α) (lexeme : Lexeme) (Q : List Lexeme → α → Lexeme → Prop) : Prop :=
  ∀ cursor result after, cursor.hand = lexeme → p.run cursor = .ok (result, after) →
    ∃ moved, cursor.Moves moved after ∧ Q moved result after.hand

namespace Reads

variable {lexeme : Lexeme}

theorem pure {Q : List Lexeme → α → Lexeme → Prop} {a : α} (holds : Q [] a lexeme) :
    Reads (Pure.pure a) lexeme Q := by
  intro cursor result after hand run
  cases run
  cases hand
  exact ⟨[], .refl cursor, holds⟩

theorem mono {p : Parse α} {Q R : List Lexeme → α → Lexeme → Prop} (reads : Reads p lexeme Q)
    (weaker : ∀ moved a next, Q moved a next → R moved a next) : Reads p lexeme R := by
  intro cursor result after hand run
  obtain ⟨moved, moves, holds⟩ := reads cursor result after hand run
  exact ⟨moved, moves, weaker _ _ _ holds⟩

theorem bind {p : Parse α} {f : α → Parse β} {Q : List Lexeme → α → Lexeme → Prop}
    {R : List Lexeme → β → Lexeme → Prop} (first : Reads p lexeme Q)
    (next : ∀ moved a hand, Q moved a hand →
      Reads (f a) hand fun more b last => R (moved ++ more) b last) :
    Reads (p >>= f) lexeme R := by
  intro cursor result after hand run
  rw [StateT.run_bind] at run
  cases middle : p.run cursor with
  | error e =>
    rw [middle] at run
    cases run
  | ok answer =>
    obtain ⟨a, between⟩ := answer
    rw [middle] at run
    obtain ⟨moved, moves, holds⟩ := first cursor a between hand middle
    obtain ⟨more, moves', holds'⟩ := next moved a between.hand holds between result after rfl run
    exact ⟨moved ++ more, moves.trans moves', holds'⟩

theorem fail {Q : List Lexeme → α → Lexeme → Prop} (wanted : Wanted) :
    Reads (Parse.fail wanted) lexeme Q := by
  intro cursor result after _ run
  cases run

theorem throw {Q : List Lexeme → α → Lexeme → Prop} (e : ParseError) :
    Reads (MonadExcept.throw e) lexeme Q := by
  intro cursor result after _ run
  cases run

theorem ite {c : Prop} [Decidable c] {p q : Parse α} {Q : List Lexeme → α → Lexeme → Prop}
    (yes : c → Reads p lexeme Q) (no : ¬ c → Reads q lexeme Q) :
    Reads (if c then p else q) lexeme Q := by
  by_cases holds : c
  · rw [if_pos holds]
    exact yes holds
  · rw [if_neg holds]
    exact no holds

/-! The steps of the cursor, each with what follows it. -/

variable {Q : List Lexeme → β → Lexeme → Prop}

theorem peek {f : Lexeme → Parse β} (next : Reads (f lexeme) lexeme Q) :
    Reads (Parse.peek >>= f) lexeme Q := by
  intro cursor result after hand run
  cases hand
  exact next cursor result after rfl run

theorem advance {f : Unit → Parse β} (inside : lexeme ≠ .eof)
    (next : ∀ hand, Reads (f ()) hand fun more b last => Q (lexeme :: more) b last) :
    Reads (Parse.advance >>= f) lexeme Q := by
  intro cursor result after hand run
  cases hand
  cases advanced : cursor.advance with
  | error e =>
    simp only [Parse.advance, StateT.run_bind, StateT.run_get, pure_bind, advanced] at run
    cases run
  | ok middle =>
    simp only [Parse.advance, StateT.run_bind, StateT.run_get, pure_bind, advanced] at run
    obtain ⟨moved, moves, holds⟩ := next middle.hand middle result after rfl run
    exact ⟨_, .step inside advanced moves, holds⟩

theorem at? {p : Punctuator} {f : Bool → Parse β}
    (yes : lexeme = .punctuator p → Reads (f true) lexeme Q)
    (no : lexeme ≠ .punctuator p → Reads (f false) lexeme Q) :
    Reads (Parse.at? p >>= f) lexeme Q := by
  unfold Parse.at?
  rw [bind_assoc]
  apply peek
  cases lexeme with
  | punctuator q =>
    by_cases same : q = p
    · cases same
      simpa using yes rfl
    · have different : (q == p) = false := beq_eq_false_iff_ne.mpr same
      simpa [different] using no (by simpa using same)
  | _ => exact no (by simp)

theorem atKeyword? {k : Keyword} {f : Bool → Parse β}
    (yes : lexeme = .keyword k → Reads (f true) lexeme Q)
    (no : lexeme ≠ .keyword k → Reads (f false) lexeme Q) :
    Reads (Parse.atKeyword? k >>= f) lexeme Q := by
  unfold Parse.atKeyword?
  rw [bind_assoc]
  apply peek
  cases lexeme with
  | keyword q =>
    by_cases same : q = k
    · cases same
      simpa using yes rfl
    · have different : (q == k) = false := beq_eq_false_iff_ne.mpr same
      simpa [different] using no (by simpa using same)
  | _ => exact no (by simp)

theorem eat {p : Punctuator} {f : Bool → Parse β}
    (yes : lexeme = .punctuator p →
      ∀ hand, Reads (f true) hand fun more b last => Q (.punctuator p :: more) b last)
    (no : lexeme ≠ .punctuator p → Reads (f false) lexeme Q) :
    Reads (Parse.eat p >>= f) lexeme Q := by
  unfold Parse.eat
  rw [bind_assoc]
  apply at?
  · intro same
    rw [if_pos rfl, bind_assoc]
    cases same
    exact advance (by simp) fun hand => yes rfl hand
  · intro other
    exact no other

theorem eatKeyword {k : Keyword} {f : Bool → Parse β}
    (yes : lexeme = .keyword k →
      ∀ hand, Reads (f true) hand fun more b last => Q (.keyword k :: more) b last)
    (no : lexeme ≠ .keyword k → Reads (f false) lexeme Q) :
    Reads (Parse.eatKeyword k >>= f) lexeme Q := by
  unfold Parse.eatKeyword
  rw [bind_assoc]
  apply atKeyword?
  · intro same
    rw [if_pos rfl, bind_assoc]
    cases same
    exact advance (by simp) fun hand => yes rfl hand
  · intro other
    exact no other

theorem expect {p : Punctuator} {f : Unit → Parse β}
    (next : ∀ hand, Reads (f ()) hand fun more b last => Q (.punctuator p :: more) b last) :
    Reads (Parse.expect p >>= f) lexeme Q := by
  unfold Parse.expect
  rw [bind_assoc]
  exact eat (fun _ hand => next hand) fun _ => .fail _

theorem expectKeyword {k : Keyword} {f : Unit → Parse β}
    (next : ∀ hand, Reads (f ()) hand fun more b last => Q (.keyword k :: more) b last) :
    Reads (Parse.expectKeyword k >>= f) lexeme Q := by
  unfold Parse.expectKeyword
  rw [bind_assoc]
  exact eatKeyword (fun _ hand => next hand) fun _ => .fail _

theorem expectIdentifier {f : String → Parse β}
    (next : ∀ name hand, lexeme = .identifier name →
      Reads (f name) hand fun more b last => Q (.identifier name :: more) b last) :
    Reads (Parse.expectIdentifier >>= f) lexeme Q := by
  unfold Parse.expectIdentifier
  rw [bind_assoc]
  apply peek
  cases lexeme with
  | identifier name =>
    simp only [bind_assoc]
    exact advance (by simp) fun hand => by simpa using next name hand rfl
  | _ => exact .fail _

end Reads

def Runs (p : Parse α) (first : Cursor) (a : α) (last : Cursor) : Prop :=
  p.run first = .ok (a, last)

namespace Runs

variable {first middle last : Cursor} {b : β}

theorem pure (a : α) (cursor : Cursor) : Runs (Pure.pure a) cursor a cursor := rfl

theorem bind {p : Parse α} {f : α → Parse β} {a : α} (start : Runs p first a middle)
    (next : Runs (f a) middle b last) : Runs (p >>= f) first b last := by
  unfold Runs at start next ⊢
  rw [StateT.run_bind, start]
  exact next

theorem of_bind {p : Parse α} {f : α → Parse β} (runs : Runs (p >>= f) first b last) :
    ∃ a middle, Runs p first a middle ∧ Runs (f a) middle b last := by
  unfold Runs at runs
  rw [StateT.run_bind] at runs
  cases start : p.run first with
  | error e =>
    rw [start] at runs
    cases runs
  | ok answer =>
    rw [start] at runs
    exact ⟨answer.1, answer.2, start, runs⟩

theorem peek_iff {f : Lexeme → Parse β} :
    Runs (Parse.peek >>= f) first b last ↔ Runs (f first.hand) first b last :=
  .rfl

theorem peek {f : Lexeme → Parse β} (next : Runs (f first.hand) first b last) :
    Runs (Parse.peek >>= f) first b last :=
  peek_iff.mpr next

theorem advance {lexeme : Lexeme} {f : Unit → Parse β} (step : Step first lexeme middle)
    (next : Runs (f ()) middle b last) : Runs (Parse.advance >>= f) first b last := by
  apply bind _ next
  unfold Runs Parse.advance
  simp only [StateT.run_bind, StateT.run_get, pure_bind, step.advanced]
  rfl

theorem at? {p : Punctuator} {f : Bool → Parse β} (hand : first.hand = .punctuator p)
    (next : Runs (f true) first b last) : Runs (Parse.at? p >>= f) first b last := by
  apply bind _ next
  apply peek
  rw [hand]
  simp only [beq_self_eq_true]
  rfl

theorem not_at? {p : Punctuator} {f : Bool → Parse β} (hand : first.hand ≠ .punctuator p)
    (next : Runs (f false) first b last) : Runs (Parse.at? p >>= f) first b last := by
  apply bind _ next
  apply peek
  cases at? : first.hand with
  | punctuator q =>
    have different : (q == p) = false := beq_eq_false_iff_ne.mpr fun same => hand (same ▸ at?)
    simp only [different]
    rfl
  | _ => rfl

theorem atKeyword? {k : Keyword} {f : Bool → Parse β} (hand : first.hand = .keyword k)
    (next : Runs (f true) first b last) : Runs (Parse.atKeyword? k >>= f) first b last := by
  apply bind _ next
  apply peek
  rw [hand]
  simp only [beq_self_eq_true]
  rfl

theorem eat {p : Punctuator} {f : Bool → Parse β} (step : Step first (.punctuator p) middle)
    (next : Runs (f true) middle b last) : Runs (Parse.eat p >>= f) first b last := by
  apply bind _ next
  apply at? step.hand
  exact advance step (pure true middle)

theorem not_eat {p : Punctuator} {f : Bool → Parse β} (hand : first.hand ≠ .punctuator p)
    (next : Runs (f false) first b last) : Runs (Parse.eat p >>= f) first b last := by
  apply bind _ next
  apply not_at? hand
  exact pure false first

theorem expect {p : Punctuator} {f : Unit → Parse β} (step : Step first (.punctuator p) middle)
    (next : Runs (f ()) middle b last) : Runs (Parse.expect p >>= f) first b last := by
  apply bind _ next
  apply eat step
  exact pure () middle

theorem expectKeyword {k : Keyword} {f : Unit → Parse β} (step : Step first (.keyword k) middle)
    (next : Runs (f ()) middle b last) : Runs (Parse.expectKeyword k >>= f) first b last := by
  apply bind _ next
  have eaten : Runs (Parse.eatKeyword k) first true middle :=
    atKeyword? step.hand (advance step (pure true middle))
  exact bind eaten (pure () middle)

theorem expectIdentifier {name : String} {f : String → Parse β}
    (step : Step first (.identifier name) middle) (next : Runs (f name) middle b last) :
    Runs (Parse.expectIdentifier >>= f) first b last := by
  apply bind _ next
  apply peek
  rw [step.hand]
  exact advance step (pure name middle)

end Runs

end Parse

end StepScript
