import StepScript.Proofs.Grammar.Lookahead
import StepScript.Proofs.Token.Places

/-! Why a text is refused.

A text is refused for one of the results of the lexer: it is a mistake, or it is a token that is
not wanted there. Nothing behind this result has a part in it, so texts that have the same results
up to this one are refused alike.
-/

set_option autoImplicit false

namespace StepScript

/-- Up to the `k`-th the results of both texts read the same. -/
def ReadAlike (k : Nat) (source other : String) : Prop :=
  ∀ j ≤ k, reading (resultAt source j) = reading (resultAt other j)

def Coincide (k : Nat) (source other : String) : Prop :=
  ∀ j ≤ k, resultAt source j = resultAt other j

/-- The mistake concerns the `k`-th result of the text, and the ones before are tokens. -/
structure RefusedAt (source : String) (k : Nat) (e : ParseError) : Prop where
  here : e.Concerns (resultAt source k)
  before : ∀ j < k, ∃ token, resultAt source j = .ok token

section

variable {source other : String} {k : Nat}

theorem Coincide.mono {j : Nat} (coincide : Coincide k source other) (less : j ≤ k) :
    Coincide j source other :=
  fun place below => coincide place (Nat.le_trans below less)

theorem Coincide.readAlike (coincide : Coincide k source other) : ReadAlike k source other :=
  fun j below => congrArg reading (coincide j below)

theorem ParseError.Concerns.span {e : ParseError} {result : Except LexError Token}
    (concerns : e.Concerns result) : e.span? = some (spanOf result) := by
  cases concerns <;> rfl

/-! ## From the first result on -/

theorem start_cases (source : String) :
    (∃ first, Cursor.start (lexResults source) source.utf8ByteSize = .ok first ∧
      ∀ k, first.result k = resultAt source k) ∨
    ∃ e, Cursor.start (lexResults source) source.utf8ByteSize = .error (.lexical e) ∧
      resultAt source 0 = .error e := by
  let front : Cursor := ⟨endToken source.utf8ByteSize, lexResults source, source.utf8ByteSize⟩
  rcases front.advance_eq with ⟨first, started, -⟩ | ⟨e, wrong, first⟩
  · exact .inl ⟨first, started, Cursor.result_of_advance started⟩
  · exact .inr ⟨e, wrong, first⟩

theorem parse_of_start {first : Cursor}
    (started : Cursor.start (lexResults source) source.utf8ByteSize = .ok first) :
    parse source = ((Goal.outcome (.unit [])).run first).map fun answer => .ofRose answer.1 := by
  rw [parse, parseTree_eq_outcome, started]
  simp only [bind, Except.bind]
  cases (Goal.outcome (.unit [])).run first <;> rfl

theorem parse_of_wrong_start {e : ParseError}
    (wrong : Cursor.start (lexResults source) source.utf8ByteSize = .error e) :
    parse source = .error e := by
  rw [parse, parseTree_eq_outcome, wrong]
  rfl

theorem start_of_readAlike {first : Cursor} (starts : ∀ j, first.result j = resultAt source j)
    (alike : ReadAlike k source other) :
    ∃ first', Cursor.start (lexResults other) other.utf8ByteSize = .ok first' ∧
      (∀ j, first'.result j = resultAt other j) ∧ first.Shares k first' := by
  rcases start_cases other with ⟨first', started', starts'⟩ | ⟨fault, -, result⟩
  · refine ⟨first', started', starts', fun j below => ?_⟩
    rw [starts, starts']
    exact alike j below
  · have begins := alike 0 (Nat.zero_le k)
    rw [result, ← starts] at begins
    cases begins

theorem Cursor.Refuses.refusedAt {first : Cursor} {e : ParseError}
    (refused : first.Refuses k e) (starts : ∀ j, first.result j = resultAt source j) :
    RefusedAt source k e := by
  obtain ⟨here, before⟩ := refused.concerns
  simp only [starts] at here before
  exact ⟨here, before⟩

/-- A text is refused for one of its results. What reads the same up to this one is refused for the
same reason, at the same result. -/
theorem refused_of_parse {e : ParseError} (refused : parse source = .error e) :
    ∃ k, RefusedAt source k e ∧ ∀ other, ReadAlike k source other →
      ∃ e', parse other = .error e' ∧ RefusedAt other k e' ∧ e.Like e' := by
  rcases start_cases source with ⟨first, started, starts⟩ | ⟨fault, wrong, result⟩
  · rw [parse_of_start started] at refused
    cases run : (Goal.outcome (.unit [])).run first with
    | ok answer =>
      rw [run] at refused
      cases refused
    | error e' =>
      rw [run] at refused
      cases refused
      have fueled := (agrees_outcome (.unit []) first.hand first.left first rfl (Nat.le_refl _)).2.1
      have some : e ≠ .outOfFuel := by
        rintro rfl
        exact fueled run
      obtain ⟨k, refused, same⟩ := (local_outcome (.unit [])).error run some
      refine ⟨k, refused.refusedAt starts, fun other alike => ?_⟩
      obtain ⟨first', started', starts', shares⟩ := start_of_readAlike starts alike
      obtain ⟨e', run', refused', like⟩ := same first' shares
      have wrong : parse other = .error e' := by
        rw [parse_of_start started', run']
        rfl
      exact ⟨e', wrong, refused'.refusedAt starts', like⟩
  · rw [parse_of_wrong_start wrong] at refused
    cases refused
    refine ⟨0, ⟨result ▸ .fault fault, nofun⟩, fun other alike => ?_⟩
    have first := alike 0 (Nat.le_refl 0)
    rw [result] at first
    rcases start_cases other with ⟨first', -, starts'⟩ | ⟨fault', wrong', result'⟩
    · rw [← starts'] at first
      cases first
    · rw [result'] at first
      exact ⟨.lexical fault', parse_of_wrong_start wrong', ⟨result' ▸ .fault fault', nofun⟩,
        .lexical (Except.error.inj first)⟩

/-- What reads the same as a program, as far as the program has been read, is the same program. -/
theorem accepted_of_parse {code : Code} (accepted : parse source = .ok code) :
    ∃ k, ∀ other, ReadAlike k source other → parse other = .ok code := by
  rcases start_cases source with ⟨first, started, starts⟩ | ⟨fault, wrong, -⟩
  · rw [parse_of_start started] at accepted
    cases run : (Goal.outcome (.unit [])).run first with
    | error e =>
      rw [run] at accepted
      cases accepted
    | ok answer =>
      obtain ⟨tree, last⟩ := answer
      rw [run] at accepted
      obtain ⟨k, -, same⟩ := (local_outcome (.unit [])).ok run
      refine ⟨k, fun other alike => ?_⟩
      obtain ⟨first', started', -, shares⟩ := start_of_readAlike starts alike
      obtain ⟨last', run', -⟩ := same first' shares
      rw [parse_of_start started', run']
      exact accepted
  · rw [parse_of_wrong_start wrong] at accepted
    cases accepted

/-! ## The result that decides -/

theorem mapM_of_first_error {results : List (Except LexError Token)} {e : LexError}
    (wrong : results[k]? = some (.error e))
    (before : ∀ j < k, ∃ token, results[j]? = some (.ok token)) : results.mapM id = .error e := by
  induction results generalizing k with
  | nil => cases wrong
  | cons result results ih =>
    rw [List.mapM_cons]
    cases k with
    | zero =>
      cases wrong
      rfl
    | succ k =>
      obtain ⟨token, first⟩ := before 0 (Nat.succ_pos k)
      cases first
      have more := ih wrong fun j below => before (j + 1) (Nat.succ_lt_succ below)
      rw [more]
      rfl

theorem resultAt_error {e : LexError} (wrong : resultAt source k = .error e) :
    (lexResults source)[k]? = some (.error e) := by
  rw [resultAt] at wrong
  cases found : (lexResults source)[k]? with
  | none =>
    rw [found] at wrong
    cases wrong
  | some result =>
    rw [found] at wrong
    exact congrArg some wrong

theorem RefusedAt.tokenize {e : LexError} (refused : RefusedAt source k (.lexical e)) :
    tokenize source = .error e := by
  obtain ⟨here, before⟩ := refused
  cases wrong : resultAt source k with
  | ok token =>
    rw [wrong] at here
    cases here
  | error e' =>
    rw [wrong] at here
    cases here
    have there := resultAt_error wrong
    obtain ⟨inside, -⟩ := List.getElem?_eq_some_iff.mp there
    have all : (lexResults source).mapM id = .error e := by
      apply mapM_of_first_error there
      intro j below
      obtain ⟨token, first⟩ := before j below
      rw [resultAt, List.getElem?_eq_getElem (Nat.lt_trans below inside)] at first
      exact ⟨token, (List.getElem?_eq_getElem _).trans (congrArg some first)⟩
    rw [StepScript.tokenize, all]
    rfl

/-- Behind the last result nothing new comes, in no text that has the same results up to there. -/
theorem Coincide.beyond (coincide : Coincide k source other)
    (beyond : (lexResults source).length ≤ k) (j : Nat) : resultAt source j = resultAt other j := by
  have ended : ∀ j, (lexResults source).length ≤ j →
      resultAt source j = .ok (endToken source.utf8ByteSize) := by
    intro j behind
    rw [resultAt, List.getElem?_eq_none behind, Option.getD_none]
  rcases Nat.le_total j k with below | above
  · exact coincide j below
  · -- The other text has no result at this place: a result would not be the end.
    have last := (coincide k (Nat.le_refl k)).symm.trans (ended k beyond)
    have ended' : (lexResults other).length ≤ k := by
      rcases Nat.lt_or_ge k (lexResults other).length with inside | beyond'
      · rw [resultAt, List.getElem?_eq_getElem inside, Option.getD_some] at last
        have member := List.getElem_mem inside
        rw [last] at member
        exact absurd rfl (ne_eof_of_mem_resultsFrom member)
      · exact beyond'
    rw [ended j (Nat.le_trans beyond above), ← last, resultAt, resultAt,
      List.getElem?_eq_none ended', List.getElem?_eq_none (Nat.le_trans ended' above)]

/-- No result behind the `k`-th has the same span. The end, which comes again and again, counts
once. -/
def Sole (source : String) (k : Nat) : Prop :=
  k < (lexResults source).length →
    ∀ j > k, spanOf (resultAt source j) ≠ spanOf (resultAt source k)

theorem sole_of_short (short : source.utf8ByteSize < 2 ^ 32) (k : Nat) : Sole source k := by
  intro inside j behind same
  have later := start_lt_of_lt short inside behind
  rw [same] at later
  exact Nat.lt_irrefl _ later

/-- What a text is refused for is found in what is read of it. -/
structure Parse.Decided (source : String) : Prop where
  /-- A text is refused for one of its results, and texts that have the same ones up to there are
  refused with the same mistake. -/
  refused : ∀ e, parse source = .error e → ∃ k, RefusedAt source k e ∧
    ∀ other, Coincide k source other → parse other = .error e
  /-- The span of an unwanted token tells which one it is. -/
  unexpected : ∀ k token wanted found other, Sole source k → resultAt source k = .ok token →
    parse source = .error (.unexpected wanted found token.span) → Coincide k source other →
    parse other = .error (.unexpected wanted found token.span)
  /-- Only beyond the limit of positions could it be that of several. -/
  sole : source.utf8ByteSize < 2 ^ 32 → ∀ k, Sole source k
  /-- A mistake of the lexer decides wherever it stands. -/
  lexical : ∀ k e other, resultAt source k = .error e → parse source = .error (.lexical e) →
    Coincide k source other → parse other = .error (.lexical e)
  /-- It is the first mistake of the text. -/
  first : ∀ e, parse source = .error (.lexical e) → tokenize source = .error e

end

/-- A mistake is decided by the text that has been read. -/
theorem parsing_decided (source : String) : Parse.Decided source := by
  have refused : ∀ e, parse source = .error e → ∃ k, RefusedAt source k e ∧
      ∀ other, Coincide k source other → parse other = .error e := by
    intro e wrong
    obtain ⟨k, found, same⟩ := refused_of_parse wrong
    refine ⟨k, found, fun other coincide => ?_⟩
    obtain ⟨e', wrong', found', like⟩ := same other coincide.readAlike
    have here := found'.here
    rw [← coincide k (Nat.le_refl k)] at here
    rw [found.here.unique here like, wrong']
  constructor
  case refused => exact refused
  case unexpected =>
    intro k token wanted found other sole there wrong coincide
    obtain ⟨k', place, same⟩ := refused _ wrong
    apply same
    rcases Nat.lt_or_ge k (lexResults source).length with inside | beyond
    · apply coincide.mono
      -- Behind the `k`-th no result stands where the mistake does.
      by_contra behind
      apply sole inside k' (Nat.lt_of_not_le behind)
      have span := place.here.span
      rw [there]
      exact (Option.some.inj span).symm
    · exact fun j _ => coincide.beyond beyond j
  case sole => exact sole_of_short
  case lexical =>
    intro k e other there wrong coincide
    obtain ⟨k', place, same⟩ := refused _ wrong
    apply same
    apply coincide.mono
    by_contra behind
    obtain ⟨token, first⟩ := place.before k (Nat.lt_of_not_le behind)
    rw [there] at first
    cases first
  case first =>
    intro e wrong
    obtain ⟨k, place, -⟩ := refused _ wrong
    exact place.tokenize

end StepScript
