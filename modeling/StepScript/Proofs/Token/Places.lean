import StepScript.Proofs.Token.Serving

/-! Where results stand.

Whatever the lexer finds, a token or a mistake, it stands at some characters of the text, at least
one. As far as positions are recorded, each result begins behind the beginning of the one before.
-/

set_option autoImplicit false

namespace StepScript

def spanOf : Except LexError Token → Span
  | .ok token => token.span
  | .error e => e.span

/-- What a lexer gives when it is asked for the `k`-th time, counted from 0: behind the last result
it gives the end, again and again. -/
def resultAt (source : String) (k : Nat) : Except LexError Token :=
  (lexResults source)[k]?.getD (.ok (endToken source.utf8ByteSize))

inductive Marks (source : String) : Span → Prop where
  | intro {front text back : List Char} (split : source.toList = front ++ (text ++ back))
    (some : text ≠ []) :
    Marks source (.ofRange (byteLength front) (byteLength (front ++ text)))

theorem spanOf_locate (result : Except LexFault Lexeme) (reach : Nat) (chars : List Char)
    (position : Nat) : spanOf (locate result reach chars position) =
      .ofRange position (position + byteLength (chars.take (reach + 1))) := by
  cases result <;> rfl

section

variable {source : String} {span : Span}

theorem exists_bite_of_mem_resultsFrom {front chars : List Char} {skip : Nat}
    (split : source.toList = front ++ chars) {result : Except LexError Token}
    (member : result ∈ resultsFrom skip chars (byteLength front)) :
    ∃ before c rest found, source.toList = before ++ c :: rest ∧
      (bite c rest).result = some found ∧
      result = locate found (bite c rest).reach (c :: rest) (byteLength before) := by
  -- By induction on the characters; their position is the size of the text in front of them.
  induction chars generalizing front skip with
  | nil => cases skip <;> cases member
  | cons c rest ih =>
    have behind : source.toList = (front ++ [c]) ++ rest := by simp [split]
    have position : byteLength (front ++ [c]) = byteLength front + c.utf8Size :=
      byteLength_append front [c]
    cases skip with
    | succ skip =>
      rw [resultsFrom, ← position] at member
      exact ih behind member
    | zero =>
      rw [resultsFrom, ← position] at member
      cases found : (bite c rest).result with
      | none =>
        rw [found] at member
        exact ih behind member
      | some first =>
        rw [found] at member
        rcases List.mem_cons.mp member with rfl | later
        · exact ⟨front, c, rest, first, split, found, rfl⟩
        · exact ih behind later

theorem exists_bite_of_mem {result : Except LexError Token} (member : result ∈ lexResults source) :
    ∃ before c rest found, source.toList = before ++ c :: rest ∧
      (bite c rest).result = some found ∧
      result = locate found (bite c rest).reach (c :: rest) (byteLength before) :=
  exists_bite_of_mem_resultsFrom (List.nil_append _).symm member

theorem marks_of_mem {result : Except LexError Token} (member : result ∈ lexResults source) :
    Marks source (spanOf result) := by
  obtain ⟨before, c, rest, found, split, -, rfl⟩ := exists_bite_of_mem member
  -- Whatever the bite reaches over, it reaches over its first character.
  have text := List.take_append_drop ((bite c rest).reach + 1) (c :: rest)
  rw [spanOf_locate, ← byteLength_append]
  exact .intro (by rw [split, text]) (by simp)

theorem Marks.within (marks : Marks source span) (short : source.utf8ByteSize < 2 ^ 32) :
    span.Within source ∧ span.start < span.stop := by
  obtain ⟨split, some⟩ := marks
  next front text back =>
  have whole := within_of_split split
  have bounded : byteLength (front ++ text) ≤ source.utf8ByteSize := whole.bounded
  have wide := byteLength_pos some
  have fits : byteLength (front ++ text) ≤ Span.limit := by
    rw [Span.limit]
    omega
  rw [Span.ofRange_eq whole.ordered fits]
  refine ⟨whole, ?_⟩
  simp only [byteLength_append]
  omega

/-- Results begin one behind the other. -/
theorem pairwise_resultsFrom {chars : List Char} (skip : Nat) {position : Nat}
    (fits : position + byteLength chars ≤ Span.limit) :
    (resultsFrom skip chars position).Pairwise (fun a b => (spanOf a).start < (spanOf b).start) ∧
      ∀ result ∈ resultsFrom skip chars position, position ≤ (spanOf result).start := by
  -- A bite takes its first character at least, so the next one begins behind it.
  induction chars generalizing skip position with
  | nil => cases skip <;> exact ⟨.nil, nofun⟩
  | cons c rest ih =>
    have wide := c.utf8Size_pos
    rw [byteLength_cons, ← Nat.add_assoc] at fits
    cases skip with
    | succ skip =>
      obtain ⟨ordered, behind⟩ := ih skip fits
      exact ⟨ordered, fun result member => Nat.le_of_add_right_le (behind result member)⟩
    | zero =>
      obtain ⟨ordered, behind⟩ := ih (bite c rest).extra fits
      rw [resultsFrom]
      cases (bite c rest).result with
      | none => exact ⟨ordered, fun result member => Nat.le_of_add_right_le (behind result member)⟩
      | some first =>
        have start : (spanOf (locate first (bite c rest).reach (c :: rest) position)).start =
            position := by
          rw [spanOf_locate, Span.ofRange]
          exact Nat.min_eq_left (by omega)
        constructor
        · refine List.pairwise_cons.mpr ⟨fun result member => ?_, ordered⟩
          have later := behind result member
          omega
        · intro result member
          rcases List.mem_cons.mp member with rfl | later
          · exact Nat.le_of_eq start.symm
          · exact Nat.le_of_add_right_le (behind result later)

theorem start_lt_of_lt (short : source.utf8ByteSize < 2 ^ 32) {j k : Nat}
    (inside : j < (lexResults source).length) (before : j < k) :
    (spanOf (resultAt source j)).start < (spanOf (resultAt source k)).start := by
  have fits : 0 + byteLength source.toList ≤ Span.limit := by
    rw [byteLength_toList, Span.limit]
    omega
  have first : resultAt source j = (lexResults source)[j] := by
    rw [resultAt, List.getElem?_eq_getElem inside, Option.getD_some]
  rw [first]
  rcases Nat.lt_or_ge k (lexResults source).length with inside' | beyond
  · have second : resultAt source k = (lexResults source)[k] := by
      rw [resultAt, List.getElem?_eq_getElem inside', Option.getD_some]
    rw [second]
    exact List.pairwise_iff_getElem.mp (pairwise_resultsFrom 0 fits).1 j k inside inside' before
  · -- Behind the last result is the end of the text.
    have last : resultAt source k = .ok (endToken source.utf8ByteSize) := by
      rw [resultAt, List.getElem?_eq_none beyond, Option.getD_none]
    obtain ⟨within, wide⟩ := (marks_of_mem (List.getElem_mem inside)).within short
    have bounded := within.bounded
    have size : (spanOf (.ok (endToken source.utf8ByteSize))).start = source.utf8ByteSize :=
      Nat.min_eq_left (by rw [Span.limit]; omega)
    rw [last, size]
    omega

end

end StepScript
