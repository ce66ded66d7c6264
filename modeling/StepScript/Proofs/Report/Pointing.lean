import StepScript.Proofs.Grammar.Refusal
import StepScript.Report.Source

/-! What reports of mistakes point at.

A text that is refused is refused at some characters of it, or at its end. The report counts the
characters again, by a loop over the bytes before the span, and comes to the same ones.
-/

set_option autoImplicit false

namespace StepScript.Report

def CharRange.slice (source : String) (range : CharRange) : List Char :=
  (source.toList.drop range.start).take (range.stop - range.start)

/-- The span is a place in the text that a report can point at. -/
structure PointsAt (source : String) (span : Span) : Prop where
  /-- Both ends are between characters of the text, in order. -/
  within : span.Within source
  /-- Nothing is pointed at only at the end. -/
  filled : span.start = span.stop → span.start = source.utf8ByteSize
  /-- The characters that the report counts are those at the bytes of the span. -/
  ordered : (charRange source span).start ≤ (charRange source span).stop
  bounded : (charRange source span).stop ≤ source.toList.length
  same : (charRange source span).slice source = span.slice source

section

variable {source : String} {front text back : List Char}

/-- Where the bytes end between two characters, the loop counts the ones before. -/
theorem charsWithin_append (front rest : List Char) :
    charsWithin (front ++ rest) (byteLength front) = front.length := by
  induction front with
  | nil => cases rest <;> rfl
  | cons c front ih =>
    have wide := c.utf8Size_pos
    have some : c.utf8Size + byteLength front ≠ 0 := by omega
    rw [byteLength_cons, List.cons_append, charsWithin, if_neg some, Nat.add_sub_cancel_left, ih,
      List.length_cons]

theorem charRange_of_split (split : source.toList = front ++ (text ++ back)) :
    charRange source ⟨byteLength front, byteLength (front ++ text)⟩ =
      ⟨front.length, (front ++ text).length⟩ := by
  have stop := charsWithin_append (front ++ text) back
  rw [List.append_assoc] at stop
  rw [charRange, split, charsWithin_append, stop]

theorem pointsAt_of_split (split : source.toList = front ++ (text ++ back))
    (ended : text = [] → back = []) :
    PointsAt source ⟨byteLength front, byteLength (front ++ text)⟩ := by
  have range := charRange_of_split split
  constructor
  case within => exact within_of_split split
  case filled =>
    intro empty
    cases text with
    | nil => simp [← byteLength_toList, split, ended rfl]
    | cons c text =>
      have wide := byteLength_pos (List.cons_ne_nil c text)
      simp only [byteLength_append] at empty
      omega
  case ordered =>
    rw [range]
    simp
  case bounded =>
    rw [range, split]
    simp
  case same =>
    rw [range, slice_of_split split, CharRange.slice, split]
    simp

/-- What a lexer gives stands at characters of the text, or it is the end. -/
theorem pointsAt_resultAt (short : source.utf8ByteSize < 2 ^ 32) (k : Nat) :
    PointsAt source (spanOf (resultAt source k)) := by
  have fits : source.utf8ByteSize ≤ Span.limit := Nat.le_of_lt_succ short
  rw [resultAt]
  cases found : (lexResults source)[k]? with
  | none =>
    have split : source.toList = source.toList ++ ([] ++ []) := by simp
    have pointed := pointsAt_of_split split fun _ => rfl
    rw [List.append_nil, byteLength_toList, ← Span.ofRange_eq (Nat.le_refl _) fits] at pointed
    exact pointed
  | some result =>
    have marks := marks_of_mem (List.mem_of_getElem? found)
    rw [Option.getD_some]
    generalize spanOf result = span at marks
    cases marks with
    | @intro front text back split some =>
      have whole := within_of_split split
      rw [Span.ofRange_eq whole.ordered (Nat.le_trans whole.bounded fits)]
      exact pointsAt_of_split split fun empty => absurd empty some

end

/-- Every mistake that a text is refused for has a place in it, and reports point at this place. -/
theorem pointsAt_of_parse {source : String} {e : ParseError} (refused : parse source = .error e)
    (short : source.utf8ByteSize < 2 ^ 32) :
    ∃ span, e.span? = some span ∧ PointsAt source span := by
  obtain ⟨k, place, -⟩ := refused_of_parse refused
  exact ⟨_, place.here.span, pointsAt_resultAt short k⟩

theorem pointsAt_of_parse_invalid_number :
    let source := "'∞'\n+ 3abc;"
    let e : ParseError := .lexical ⟨.invalidNumber "3abc", ⟨8, 12⟩⟩
    parse source = .error e ∧ source.utf8ByteSize < 2 ^ 32 ∧
      charRange source ⟨8, 12⟩ = ⟨6, 10⟩ ∧ ∃ span, e.span? = some span ∧ PointsAt source span := by
  intro source e
  have refused : parse source = .error e := by cbv
  have short : source.utf8ByteSize < 2 ^ 32 := by decide
  exact ⟨refused, short, by decide, pointsAt_of_parse refused short⟩

end StepScript.Report
