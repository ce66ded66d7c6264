import StepScript.Token.Lexer

/-! What the lexer gives.

No result inside of a text is the end of it, and a text has tokens exactly where all
results are tokens.
-/

set_option autoImplicit false

namespace StepScript

def Bite.Inside (piece : Bite) : Prop :=
  piece.result ≠ some (.ok .eof)

theorem inside_biteNumber (chars : List Char) (length : Nat) :
    (biteNumber chars length).Inside := by
  unfold biteNumber
  simp only
  split <;> simp [Bite.Inside, Bite.lexeme]

theorem inside_biteString (quote : Char) (rest : List Char) : (biteString quote rest).Inside := by
  unfold biteString
  simp only
  split
  · split <;> simp [Bite.Inside, Bite.lexeme, Bite.fault]
  · simp [Bite.Inside, Bite.fault]

theorem inside_biteName (c : Char) (rest : List Char) : (biteName c rest).Inside := by
  unfold biteName
  simp only
  split <;> simp [Bite.Inside, Bite.lexeme]

theorem inside_bitePunctuator (c : Char) (rest : List Char) : (bitePunctuator c rest).Inside := by
  unfold bitePunctuator
  split <;> simp [Bite.Inside, Bite.lexeme, Bite.fault]

theorem inside_biteSlash (rest : List Char) : (biteSlash rest).Inside := by
  unfold biteSlash
  split
  · simp [Bite.Inside, Bite.skip]
  · split <;> simp [Bite.Inside, Bite.skip, Bite.fault]
  · exact inside_bitePunctuator '/' _

theorem inside_bite (c : Char) (rest : List Char) : (bite c rest).Inside := by
  unfold bite
  split
  · simp [Bite.Inside, Bite.skip]
  · split
    · exact inside_biteSlash rest
    · split
      · exact inside_biteString c rest
      · split
        · exact inside_biteName c rest
        · split
          · exact inside_biteNumber _ _
          · exact inside_bitePunctuator c rest

theorem ne_eof_of_mem_resultsFrom {chars : List Char} {skip position : Nat} {token : Token}
    (member : .ok token ∈ resultsFrom skip chars position) : token.lexeme ≠ .eof := by
  induction chars generalizing skip position with
  | nil => simp [resultsFrom] at member
  | cons c rest ih =>
    cases skip with
    | succ skip => exact ih member
    | zero =>
      simp only [resultsFrom] at member
      split at member
      · exact ih member
      · next result found =>
        rcases List.mem_cons.mp member with same | later
        · cases result with
          | error e => cases same
          | ok lexeme =>
            cases same
            intro ended
            exact inside_bite c rest (by rw [found]; exact congrArg _ (congrArg _ ended))
        · exact ih later

theorem byteLength_cons (c : Char) (chars : List Char) :
    byteLength (c :: chars) = c.utf8Size + byteLength chars :=
  rfl

/-- Behind a bite the results are those of the text that is left. -/
theorem resultsFrom_length (front rest : List Char) (position : Nat) :
    resultsFrom front.length (front ++ rest) position =
      resultsFrom 0 rest (position + byteLength front) := by
  induction front generalizing position with
  | nil => rfl
  | cons c front ih =>
    rw [byteLength_cons, ← Nat.add_assoc, ← ih]
    rfl

theorem resultsFrom_lexeme {l : Lexeme} {c : Char} {tail rest : List Char}
    (bitten : bite c (tail ++ rest) = .lexeme l tail.length) (position : Nat) :
    resultsFrom 0 (c :: (tail ++ rest)) position =
      .ok ⟨l, .ofRange position (position + byteLength (c :: tail))⟩ ::
        resultsFrom 0 rest (position + byteLength (c :: tail)) := by
  rw [resultsFrom, bitten, byteLength_cons, ← Nat.add_assoc, ← resultsFrom_length]
  simp [Bite.lexeme, locate, byteLength_cons, Nat.add_assoc]

theorem resultsFrom_skip {c : Char} {tail rest : List Char}
    (bitten : bite c (tail ++ rest) = .skip tail.length) (position : Nat) :
    resultsFrom 0 (c :: (tail ++ rest)) position =
      resultsFrom 0 rest (position + byteLength (c :: tail)) := by
  rw [resultsFrom, bitten, byteLength_cons, ← Nat.add_assoc, ← resultsFrom_length]
  rfl

theorem mapM_ok (tokens : List Token) :
    (tokens.map (Except.ok : Token → Except LexError Token)).mapM id = .ok tokens := by
  induction tokens with
  | nil => rfl
  | cons token tokens ih =>
    rw [List.map_cons, List.mapM_cons, ih]
    rfl

theorem tokenize_of_results {source : String} {tokens : List Token}
    (lexed : lexResults source = tokens.map .ok) :
    tokenize source = .ok (tokens ++ [endToken source.utf8ByteSize]) := by
  unfold tokenize
  rw [lexed, mapM_ok]
  rfl

theorem results_of_mapM {results : List (Except LexError Token)} {tokens : List Token}
    (all : results.mapM id = .ok tokens) : results = tokens.map .ok := by
  induction results generalizing tokens with
  | nil =>
    cases all
    rfl
  | cons result results ih =>
    rw [List.mapM_cons] at all
    cases result with
    | error e => cases all
    | ok token =>
      cases more : results.mapM id with
      | error e =>
        rw [more] at all
        cases all
      | ok tokens =>
        rw [more] at all
        cases all
        rw [ih more, List.map_cons]

theorem results_of_tokenize {source : String} {tokens : List Token}
    (lexed : tokenize source = .ok tokens) :
    ∃ inner, lexResults source = inner.map .ok ∧
      tokens = inner ++ [endToken source.utf8ByteSize] := by
  unfold tokenize at lexed
  cases all : (lexResults source).mapM id with
  | error e =>
    rw [all] at lexed
    cases lexed
  | ok inner =>
    rw [all] at lexed
    cases lexed
    exact ⟨inner, results_of_mapM all, rfl⟩

end StepScript
