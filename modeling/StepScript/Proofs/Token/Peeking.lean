import StepScript.Proofs.Token.Serving

/-! Peeking is invisible.

To say whether the end is next, a lexer may have to search for the next result. It keeps what it
finds until that is asked for. So requests that only peek change nothing about what the others
are given, and each of them tells whether anything but white space and complete comments is left
of the text.
-/

set_option autoImplicit false

namespace StepScript

/-! ## Text without results -/

theorem commentLength?_append {comment : List Char} (inside : ¬['*', '/'] <:+: comment)
    (rest : List Char) :
    commentLength? (comment ++ '*' :: '/' :: rest) = some (comment.length + 2) := by
  induction comment with
  | nil => rfl
  | cons c comment ih =>
    rw [List.infix_cons_iff, not_or] at inside
    rw [List.cons_append, commentLength?]
    · rw [ih inside.2, List.length_cons, Option.map_some, Nat.add_right_comm]
    -- The end mark does not begin here: neither inside of the comment nor with its last character.
    · rintro back rfl front
      cases comment with
      | nil => cases front
      | cons d comment =>
        obtain ⟨rfl, -⟩ := List.cons.inj front
        exact inside.1 ⟨comment, rfl⟩

theorem bite_of_passed {c : Char} {tail rest : List Char} (passed : Passed (c :: tail) rest) :
    bite c (tail ++ rest) = .skip tail.length := by
  cases passed with
  | blank blank => rw [bite, if_pos blank]; rfl
  | @line comment _ inside ended =>
    have whole : (comment ++ rest).takeWhile (· != '\n') = comment := by
      rw [List.takeWhile_append_of_pos]
      · cases rest with
        | nil => simp
        | cons d rest => simp [ended d rfl]
      · intro d member
        exact bne_iff_ne.mpr fun same => inside (same ▸ member)
    change biteSlash ('/' :: (comment ++ rest)) = _
    rw [biteSlash, whole, Nat.add_comm]
    rfl
  | @block comment _ inside =>
    change biteSlash ('*' :: (comment ++ ['*', '/'] ++ rest)) = _
    rw [biteSlash, List.append_assoc]
    simp [commentLength?_append inside, Nat.add_comm]

/-- A text has no results where it is white space and complete comments. -/
theorem resultsFrom_eq_nil_iff (chars : List Char) (position : Nat) :
    resultsFrom 0 chars position = [] ↔ Gap chars [] := by
  constructor
  · -- A piece can have more than one character, so the induction is on the length.
    intro none
    induction size : chars.length using Nat.strongRecOn generalizing chars position with
    | ind size ih =>
      subst size
      cases chars with
      | nil => exact .nil
      | cons c rest =>
        have sound := sound_bite c rest
        generalize bitten : bite c rest = piece at sound
        cases sound with
        | fault =>
          rw [resultsFrom, bitten] at none
          cases none
        | lexeme written =>
          rw [resultsFrom_lexeme bitten] at none
          cases none
        | @passed _ tail rest passed =>
          rw [resultsFrom_skip bitten] at none
          rw [← List.append_nil rest] at passed
          exact .piece passed (ih rest.length (by simp) rest _ none rfl)
  · intro gap
    generalize behind : ([] : List Char) = back at gap
    induction gap generalizing position with
    | nil => rfl
    | @piece front rest back passed more ih =>
      subst behind
      rw [List.append_nil] at passed
      cases front with
      | nil => cases passed
      | cons c tail => rw [List.cons_append, resultsFrom_skip (bite_of_passed passed), ih _ rfl]

namespace Lexer

def Request.takes : Request → Bool
  | atEnd => false
  | token | item => true

def Answer.delivers : Answer → Bool
  | atEnd _ => false
  | token _ | item _ => true

def unpeeked (source : String) (requests : List Request) : Lexer :=
  ((start source).serveAll (requests.filter Request.takes)).2

section

variable {source : String} {lexer plain : Lexer} {results : List (Except LexError Token)}

theorem delivers_serve (lexer : Lexer) (request : Request) :
    (lexer.serve request).1.delivers = request.takes := by
  cases request <;> rfl

theorem ahead_serve (fresh : plain.ahead = none) {request : Request}
    (takes : request.takes = true) : (plain.serve request).2.ahead = none := by
  have searched : plain.next = plain.scan := by rw [next, fresh]
  cases request with
  | token => exact congrArg (·.2.ahead) searched
  | item => exact congrArg (·.2.ahead) searched
  | atEnd => cases takes

/-- Two lexers that owe the same answer alike, whatever has been looked at in one of them. -/
theorem serveAll_unpeeked (owes : Owes source lexer results) (same : Owes source plain results)
    (fresh : plain.ahead = none) (requests : List Request) :
    let unpeeked := plain.serveAll (requests.filter Request.takes)
    (lexer.serveAll requests).1.filter Answer.delivers = unpeeked.1 ∧
      unpeeked.2.ahead = none ∧ ∃ left, Owes source (lexer.serveAll requests).2 left ∧
        Owes source unpeeked.2 left := by
  -- By induction on the requests; a look ahead changes neither what is owed nor the other lexer.
  induction requests generalizing lexer plain results with
  | nil => exact ⟨rfl, fresh, results, owes, same⟩
  | cons request requests ih =>
    obtain ⟨answer, more⟩ := serve_of_owes owes request
    rw [serveAll_cons, List.filter_cons, List.filter_cons, delivers_serve]
    cases takes : request.takes with
    | false =>
      cases request with
      | token | item => cases takes
      | atEnd => exact ih more same fresh
    | true =>
      obtain ⟨answer', more'⟩ := serve_of_owes same request
      obtain ⟨answers, clear, left, owing, owing'⟩ := ih more more' (ahead_serve fresh takes)
      rw [if_pos rfl, if_pos rfl, serveAll_cons]
      refine ⟨?_, clear, left, owing, owing'⟩
      rw [answers, answer, answer']

end

structure PeeksUnseen (source : String) : Prop where
  /-- Tokens and mistakes are those of the same requests without the peeks. -/
  delivers : ∀ requests, ((start source).serveAll requests).1.filter Answer.delivers =
    ((start source).serveAll (requests.filter Request.takes)).1
  /-- After any requests, a peek leaves the next token as it is, and says whether that is the
  end. -/
  foresees : ∀ before, let lexer := ((start source).serveAll before).2
    lexer.atEnd.2.next.1 = lexer.next.1 ∧
      (lexer.atEnd.1 = true ↔ lexer.next.1 = .ok (endToken source.utf8ByteSize))
  /-- This is so where the text behind what has been taken has no meaning. -/
  blank : ∀ before, let lexer := ((start source).serveAll before).2
    let plain := unpeeked source before
    plain.ahead = none ∧
      (∃ front, source.toList = front ++ plain.rest ∧ plain.position = byteLength front) ∧
        (lexer.atEnd.1 = true ↔ Gap plain.rest [])

/-- A lexer can be asked for the end as often as one likes. -/
theorem peeks_unseen (source : String) : PeeksUnseen source where
  delivers requests :=
    (serveAll_unpeeked (owes_start source) (owes_start source) rfl requests).1
  foresees := by
    intro before lexer
    obtain ⟨results, owes⟩ : ∃ results, Owes source lexer results :=
      serveAll_of_owes (owes_start source) before
    obtain ⟨answer, kept⟩ := atEnd_of_owes owes
    have first := (next_of_owes owes).1
    refine ⟨(next_of_owes kept).1.trans first.symm, ?_⟩
    rw [answer, first]
    cases results with
    | nil => exact ⟨fun _ => rfl, fun _ => rfl⟩
    | cons result results =>
      refine ⟨nofun, fun ended => ?_⟩
      -- No result inside of the text is its end.
      have inside := owes.inside result (.head _)
      rw [List.headD_cons] at ended
      rw [ended] at inside
      cases inside
  blank := by
    intro before lexer plain
    obtain ⟨-, fresh, left, owes, same⟩ :=
      serveAll_unpeeked (owes_start source) (owes_start source) rfl before
    refine ⟨fresh, same.place, ?_⟩
    have results := same.results
    rw [fresh] at results
    rw [(atEnd_of_owes owes).1, List.isEmpty_iff, results]
    exact resultsFrom_eq_nil_iff _ _

end Lexer

end StepScript
