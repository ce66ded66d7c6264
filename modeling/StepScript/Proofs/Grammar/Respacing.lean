import StepScript.Proofs.Grammar.Refusal
import StepScript.Proofs.Token.Spacing

/-! Layout does not matter.

The lexer takes a text with single spaces between its tokens apart into the same lexemes, and the
rules look at nothing but these. So this text is the same program, or it is refused for the same
reason.
-/

set_option autoImplicit false

namespace StepScript

section

variable {source other : String} {tokens tokens' : List Token}

theorem reading_resultAt (results : lexResults source = tokens.map .ok) (j : Nat) :
    reading (resultAt source j) = .ok ((tokens.map (·.lexeme))[j]?.getD .eof) := by
  rw [resultAt, results, List.getElem?_map, List.getElem?_map]
  cases tokens[j]? <;> rfl

theorem readAlike_of_lexemes (results : lexResults source = tokens.map .ok)
    (results' : lexResults other = tokens'.map .ok)
    (same : tokens'.map (·.lexeme) = tokens.map (·.lexeme)) (k : Nat) :
    ReadAlike k source other := by
  intro j _
  rw [reading_resultAt results, reading_resultAt results', same]

end

/-- Nothing about these tokens of a text, and about what it is as a program, depends on the layout:
with single spaces between the tokens and no other gaps it is still the same. -/
structure LayoutFree (source : String) (tokens : List Token) : Prop where
  /-- The text consists of gaps and the texts of the tokens, all but the end. -/
  cut : ∃ inner, tokens = inner ++ [endToken source.utf8ByteSize] ∧
    Cut 0 source.toList (textsFrom 0 source.toList) inner
  /-- As far as positions are recorded, these texts are the slices at the spans. -/
  slices : source.utf8ByteSize < 2 ^ 32 →
    textsFrom 0 source.toList = tokens.dropLast.map fun token => token.span.slice source
  lexed : ∃ tokens', tokenize (respaced source) = .ok tokens' ∧
    tokens'.map (·.lexeme) = tokens.map (·.lexeme)
  accepted : ∀ code, parse source = .ok code → parse (respaced source) = .ok code
  refused : ∀ e, parse source = .error e → ∃ wanted found span span',
    e = .unexpected wanted found span ∧
      parse (respaced source) = .error (.unexpected wanted found span')

/-- For every text that the lexer can take apart, layout does not matter. -/
theorem layoutFree_of_tokenize {source : String} {tokens : List Token}
    (lexed : tokenize source = .ok tokens) : LayoutFree source tokens := by
  obtain ⟨inner, results, rfl⟩ := results_of_tokenize lexed
  have cut : Cut 0 source.toList (textsFrom 0 source.toList) inner := cut_of_results results
  have respaced_lexed : Lexed (respaced source).toList (inner.map (·.lexeme)) := by
    rw [respaced, String.toList_ofList]
    exact cut.lexed
  obtain ⟨inner', results', same⟩ := respaced_lexed.lexResults
  have alike := readAlike_of_lexemes results results' same
  constructor
  case cut => exact ⟨inner, rfl, cut⟩
  case slices =>
    intro short
    rw [List.dropLast_concat]
    exact cut.slices (List.nil_append _).symm rfl short
  case lexed =>
    refine ⟨_, tokenize_of_results results', ?_⟩
    simp only [List.map_append, same, List.map_cons, List.map_nil, endToken]
  case accepted =>
    intro code accepted
    obtain ⟨k, same⟩ := accepted_of_parse accepted
    exact same _ (alike k)
  case refused =>
    intro e refused
    obtain ⟨k, place, same⟩ := refused_of_parse refused
    obtain ⟨e', refused', -, like⟩ := same _ (alike k)
    cases like with
    | unexpected wanted found span span' => exact ⟨wanted, found, span, span', rfl, refused'⟩
    | lexical =>
      -- The lexer has no mistake to report.
      have fault := place.tokenize
      rw [lexed] at fault
      cases fault

theorem layoutFree_of_tokenize_close_tokens :
    let source := "x=y/**/++//z\n.w"
    let tokens : List Token := [⟨.identifier "x", ⟨0, 1⟩⟩, ⟨.punctuator .assign, ⟨1, 2⟩⟩,
      ⟨.identifier "y", ⟨2, 3⟩⟩, ⟨.punctuator .plusPlus, ⟨7, 9⟩⟩, ⟨.punctuator .dot, ⟨13, 14⟩⟩,
      ⟨.identifier "w", ⟨14, 15⟩⟩, ⟨.eof, ⟨15, 15⟩⟩]
    tokenize source = .ok tokens ∧ respaced source = "x = y ++ . w" ∧
      LayoutFree source tokens := by
  intro source tokens
  have lexed : tokenize source = .ok tokens := by cbv
  exact ⟨lexed, by cbv, layoutFree_of_tokenize lexed⟩

end StepScript
