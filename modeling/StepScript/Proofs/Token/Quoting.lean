import StepScript.Proofs.Token.Tiling
import StepScript.Proofs.Token.Writing

/-! Quoted texts are read back.

What is written for a text in quotes is one string literal of this text, whatever the text holds
and whatever follows. The literal ends at the quote that is written last and at no other place:
what comes before it, without it, is a literal that is still open.
-/

set_option autoImplicit false

namespace StepScript

theorem toList_quoted (text : String) :
    (Text.quoted text).toList = Text.quotedChars text.toList :=
  String.toList_ofList

/-- The literal is taken off in one piece, and what follows it is not touched. -/
theorem resultsFrom_quoted (text : String) (rest : List Char) (position : Nat) :
    let behind := position + (Text.quoted text).utf8ByteSize
    resultsFrom 0 ((Text.quoted text).toList ++ rest) position =
      .ok ⟨.string text, .ofRange position behind⟩ :: resultsFrom 0 rest behind := by
  have taken := taken_string text rest
  rw [← byteLength_toList, toList_quoted]
  generalize Text.quotedChars text.toList = chars at taken ⊢
  cases taken with
  | intro bitten => exact resultsFrom_lexeme bitten position

theorem tokenize_quoted (text : String) :
    let size := (Text.quoted text).utf8ByteSize
    tokenize (Text.quoted text) = .ok [⟨.string text, .ofRange 0 size⟩, endToken size] := by
  have alone := resultsFrom_quoted text [] 0
  rw [List.append_nil, Nat.zero_add] at alone
  have results : lexResults (Text.quoted text) =
      [⟨.string text, .ofRange 0 (Text.quoted text).utf8ByteSize⟩].map .ok := alone
  exact tokenize_of_results results

/-! ## The last quote -/

theorem stringLength_quotedChar (c : Char) (rest : List Char) :
    stringLength '"' (Text.quotedChar c ++ rest) =
      ((stringLength '"' rest).1, (stringLength '"' rest).2 + (Text.quotedChar c).length) := by
  rcases quotedChar_cases c with ⟨mark, listed, is⟩ | ⟨is, noQuote, noSlash, noFeed⟩
  · have all : escapes.all (·.2 != '\n') = true := by decide
    have noFeed : mark ≠ '\n' := bne_iff_ne.mp (List.all_eq_true.mp all (c, mark) listed)
    simp [is, stringLength, noFeed]
  · rw [is, List.cons_append, stringLength.eq_def]
    simp [noQuote, noSlash, noFeed]

/-- Before the last quote, nothing of what is written closes the literal. -/
theorem stringLength_open {chars front : List Char}
    (written : front <+: chars.flatMap Text.quotedChar) : (stringLength '"' front).1 = false := by
  induction chars generalizing front with
  | nil =>
    rw [List.prefix_nil.mp written]
    rfl
  | cons c chars ih =>
    have passed (rest : List Char) := congrArg Prod.fst (stringLength_quotedChar c rest)
    rw [List.flatMap_cons] at written
    -- The front may end between a backslash and the character that it is written for.
    rcases quotedChar_cases c with ⟨mark, -, is⟩ | ⟨is, -⟩
    · rw [is] at written passed
      rcases List.prefix_cons_iff.mp written with rfl | ⟨_, rfl, marked⟩
      · rfl
      rcases List.prefix_cons_iff.mp marked with rfl | ⟨tail, rfl, more⟩
      · rfl
      · exact (passed tail).trans (ih more)
    · rw [is] at written passed
      rcases List.prefix_cons_iff.mp written with rfl | ⟨tail, rfl, more⟩
      · rfl
      · exact (passed tail).trans (ih more)

theorem tokenize_open {chars front : List Char}
    (written : front <+: chars.flatMap Text.quotedChar) :
    ∃ span, tokenize (String.ofList ('"' :: front)) = .error ⟨.unterminatedString, span⟩ := by
  have bitten : bite '"' front = .fault .unterminatedString (stringLength '"' front).2 := by
    change biteString '"' front = _
    rw [biteString]
    simp [stringLength_open written]
  rw [tokenize, lexResults, String.toList_ofList, resultsFrom, bitten]
  exact ⟨_, rfl⟩

/-- Of what is written for a text in quotes, the lexer makes this text. -/
structure ReadsBack (text : String) : Prop where
  /-- There is one token, and then the end. -/
  alone : let size := (Text.quoted text).utf8ByteSize
    tokenize (Text.quoted text) = .ok [⟨.string text, .ofRange 0 size⟩, endToken size]
  /-- The token stands at all that is written, as far as positions are recorded. -/
  spans : let size := (Text.quoted text).utf8ByteSize
    size < 2 ^ 32 → Span.ofRange 0 size = ⟨0, size⟩ ∧
      (Span.ofRange 0 size).slice (Text.quoted text) = (Text.quoted text).toList
  /-- In front of any other text, the literal takes nothing of it. -/
  before : ∀ rest position, let behind := position + (Text.quoted text).utf8ByteSize
    resultsFrom 0 ((Text.quoted text).toList ++ rest) position =
      .ok ⟨.string text, .ofRange position behind⟩ :: resultsFrom 0 rest behind
  /-- Anything less of what is written is a literal that is still open. -/
  whole : ∀ front back, (Text.quoted text).toList = '"' :: (front ++ back) → back ≠ [] →
    ∃ span, tokenize (String.ofList ('"' :: front)) = .error ⟨.unterminatedString, span⟩

/-- A text is read back from what is written for it in quotes. -/
theorem readsBack_quoted (text : String) : ReadsBack text where
  alone := tokenize_quoted text
  spans := by
    intro size short
    have fits : size ≤ Span.limit := Nat.le_of_lt_succ short
    have same := Span.ofRange_eq (Nat.zero_le size) fits
    have split : (Text.quoted text).toList = [] ++ ((Text.quoted text).toList ++ []) := by simp
    have slice := slice_of_split split
    rw [List.nil_append, byteLength_toList] at slice
    exact ⟨same, same ▸ slice⟩
  before := resultsFrom_quoted text
  whole := by
    intro front back split some
    rw [toList_quoted, Text.quotedChars, List.cons_append] at split
    have split := (List.cons.inj split).2
    rcases List.prefix_concat_iff.mp ⟨back, split.symm⟩ with all | written
    · rw [← all] at split
      exact absurd (List.self_eq_append_right.mp split) some
    · exact tokenize_open written

end StepScript
