import StepScript.Proofs.Token.Tiling
import StepScript.Proofs.Token.Writing

/-! Tokens with spaces between them.

The text of a token and what follows decide together what the lexer takes off. But the written form
of a lexeme is taken off as this lexeme wherever a space or nothing follows. So a text can be cut
into the texts of its tokens, and with single spaces between them these have the same lexemes.
-/

set_option autoImplicit false

namespace StepScript

def respaced (source : String) : String :=
  String.ofList ([' '].intercalate (textsFrom 0 source.toList))

/-! ## Written forms in front of a space -/

def Spaced (rest : List Char) : Prop :=
  ∀ c ∈ rest.head?, c = ' '

theorem Spaced.apart {rest : List Char} (spaced : Spaced rest) : Apart rest := by
  intro c first
  rw [spaced c first]
  decide

theorem isName_of_free {c : Char} {tail : List Char} (start : isNameStart c = true)
    (all : ∀ d ∈ tail, isNameChar d = true)
    (free : ∀ k : Keyword, k.text ≠ String.ofList (c :: tail)) :
    isName (String.ofList (c :: tail)) = true := by
  have none : Keyword.ofText? (String.ofList (c :: tail)) = none := by
    unfold Keyword.ofText?
    exact List.find?_eq_none.mpr fun k _ => by simpa using free k
  simp only [isName, String.toList_ofList, none, start, Option.isNone_none, Bool.and_true,
    Bool.true_and]
  exact List.all_eq_true.mpr all

/-- The written form of a lexeme is taken off as this lexeme in front of a space or nothing. -/
theorem taken_of_written {l : Lexeme} {text rest : List Char} (written : l.WrittenAs text)
    (some : text ≠ []) (spaced : Spaced rest) : Taken l text rest := by
  cases written with
  | keyword k => exact taken_keyword k spaced.apart
  | punctuator p =>
    cases rest with
    | nil => cases p <;> exact .intro rfl
    | cons c rest =>
      rw [spaced c rfl]
      exact taken_spaced p rest
  | identifier start all free =>
    have taken := taken_name (isName_of_free start all free) spaced.apart
    rwa [String.toList_ofList] at taken
  | number numeral => exact taken_numeral numeral spaced.apart
  | string quoteIs decodes => exact taken_decodes quoteIs decodes rest
  | eof => exact absurd rfl some

/-! ## Joining the texts -/

/-- The texts with spaces between them are taken apart into the lexemes again. -/
theorem Cut.lexed {position : Nat} {chars : List Char} {texts : List (List Char)}
    {tokens : List Token} (cut : Cut position chars texts tokens) :
    Lexed ([' '].intercalate texts) (tokens.map (·.lexeme)) := by
  induction cut with
  | ended => exact .nil
  | @token position gap text rest texts l tokens _ written some more ih =>
    cases texts with
    | nil =>
      cases more
      have alone : Lexed (text ++ []) [l] := .token (taken_of_written written some nofun) .nil
      simpa using alone
    | cons next texts =>
      have spaced : Spaced (' ' :: [' '].intercalate (next :: texts)) := by
        rintro c ⟨⟩
        rfl
      have first : Lexed (text ++ ' ' :: [' '].intercalate (next :: texts)) _ :=
        .token (taken_of_written written some spaced) (.gap rfl ih)
      simpa [List.intercalate_cons_cons] using first

theorem Cut.slices {source : String} {position : Nat} {chars : List Char}
    {texts : List (List Char)} {tokens : List Token} (cut : Cut position chars texts tokens)
    {front : List Char} (split : source.toList = front ++ chars)
    (atFront : position = byteLength front) (short : source.utf8ByteSize < 2 ^ 32) :
    texts = tokens.map fun token => token.span.slice source := by
  induction cut generalizing front with
  | ended => rfl
  | @token position gap text rest texts l tokens _ _ _ _ ih =>
    have behind : source.toList = (front ++ gap) ++ (text ++ rest) := by simp [split]
    have ahead : source.toList = (front ++ (gap ++ text)) ++ rest := by simp [split]
    have whole := within_of_split behind
    have placed := slice_of_split behind
    have bounded : byteLength ((front ++ gap) ++ text) ≤ source.utf8ByteSize := whole.bounded
    have fits : byteLength ((front ++ gap) ++ text) ≤ Span.limit := by
      rw [Span.limit]
      omega
    rw [← Span.ofRange_eq whole.ordered fits, List.append_assoc, byteLength_append,
      byteLength_append front, ← atFront] at placed
    rw [List.map_cons, placed, ← ih ahead (by simp [atFront])]

end StepScript
