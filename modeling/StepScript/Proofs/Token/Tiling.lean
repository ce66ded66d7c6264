import Mathlib.Data.List.Chain
import Mathlib.Data.String.Lemmas
import StepScript.Proofs.Token.Lexemes

/-! Tokens tile their text.

Every character of a text belongs to one token or to the white space and the comments
between two of them. The spans of the tokens are where the written forms of their lexemes
stand, in bytes.
-/

set_option autoImplicit false

namespace StepScript

inductive Gap : List Char → List Char → Prop where
  | nil {behind : List Char} : Gap [] behind
  | piece {front rest behind : List Char} (passed : Passed front (rest ++ behind))
    (more : Gap rest behind) : Gap (front ++ rest) behind

def textsFrom : Nat → List Char → List (List Char)
  | _, [] => []
  | skip + 1, _ :: rest => textsFrom skip rest
  | 0, c :: rest =>
    let piece := bite c rest
    match piece.result with
    | none => textsFrom piece.extra rest
    | some _ => (c :: rest.take piece.extra) :: textsFrom piece.extra rest

/-- The text from a byte position on is cut into gaps and these texts. They are the written forms
of the lexemes of the tokens, which stand there. -/
inductive Cut : Nat → List Char → List (List Char) → List Token → Prop where
  | ended {position : Nat} {gap : List Char} (blank : Gap gap []) : Cut position gap [] []
  | token {position : Nat} {gap text rest : List Char} {texts : List (List Char)} {l : Lexeme}
    {tokens : List Token} (blank : Gap gap (text ++ rest)) (written : l.WrittenAs text)
    (some : text ≠ []) (more : Cut (position + byteLength (gap ++ text)) rest texts tokens) :
    Cut position (gap ++ (text ++ rest)) (text :: texts)
      (⟨l, .ofRange (position + byteLength gap) (position + byteLength (gap ++ text))⟩ :: tokens)

/-- The text from a byte position on is cut into gaps and the written forms of lexemes, and
the tokens are these lexemes where they stand. -/
inductive Tiled : Nat → List Char → List Token → Prop where
  | ended {position : Nat} {gap : List Char} (blank : Gap gap []) :
    Tiled position gap [⟨.eof, .point (position + byteLength gap)⟩]
  | token {position : Nat} {gap text rest : List Char} {l : Lexeme} {tokens : List Token}
    (blank : Gap gap (text ++ rest)) (written : l.WrittenAs text) (some : text ≠ [])
    (more : Tiled (position + byteLength (gap ++ text)) rest tokens) :
    Tiled position (gap ++ (text ++ rest))
      (⟨l, position + byteLength gap, position + byteLength (gap ++ text)⟩ :: tokens)

/-! ## Bytes -/

@[simp] theorem byteLength_append (front back : List Char) :
    byteLength (front ++ back) = byteLength front + byteLength back := by
  induction front with
  | nil => exact (Nat.zero_add _).symm
  | cons c front ih => rw [List.cons_append, byteLength_cons, byteLength_cons, ih, Nat.add_assoc]

theorem byteLength_eq_utf8Len (chars : List Char) : byteLength chars = String.utf8Len chars := by
  induction chars with
  | nil => rfl
  | cons c chars ih => rw [byteLength_cons, String.utf8Len_cons, ih, Nat.add_comm]

theorem byteLength_toList (source : String) : byteLength source.toList = source.utf8ByteSize := by
  rw [byteLength_eq_utf8Len, String.utf8Len_toList]

theorem byteLength_pos {chars : List Char} (some : chars ≠ []) : 0 < byteLength chars := by
  obtain ⟨c, rest, rfl⟩ := List.exists_cons_of_ne_nil some
  have wide := c.utf8Size_pos
  rw [byteLength_cons]
  omega

theorem Span.ofRange_eq {start stop : Nat} (ordered : start ≤ stop) (fits : stop ≤ limit) :
    ofRange start stop = ⟨start, stop⟩ := by
  rw [ofRange, Nat.min_eq_left (Nat.le_trans ordered fits), Nat.min_eq_left fits]

/-! ## Taking the pieces off -/

theorem textsFrom_length (front rest : List Char) :
    textsFrom front.length (front ++ rest) = textsFrom 0 rest := by
  induction front with
  | nil => rfl
  | cons c front ih => exact ih

theorem textsFrom_lexeme {l : Lexeme} {c : Char} {tail rest : List Char}
    (bitten : bite c (tail ++ rest) = .lexeme l tail.length) :
    textsFrom 0 (c :: (tail ++ rest)) = (c :: tail) :: textsFrom 0 rest := by
  rw [textsFrom, bitten]
  simp [Bite.lexeme, textsFrom_length]

theorem textsFrom_skip {c : Char} {tail rest : List Char}
    (bitten : bite c (tail ++ rest) = .skip tail.length) :
    textsFrom 0 (c :: (tail ++ rest)) = textsFrom 0 rest := by
  rw [textsFrom, bitten]
  exact textsFrom_length tail rest

theorem Cut.prepend {position : Nat} {front rest : List Char} {texts : List (List Char)}
    {tokens : List Token} (passed : Passed front rest)
    (cut : Cut (position + byteLength front) rest texts tokens) :
    Cut position (front ++ rest) texts tokens := by
  cases cut with
  | ended blank =>
    rw [← List.append_nil rest] at passed
    exact .ended (.piece passed blank)
  | token blank written some more =>
    have cut : Cut position _ _ _ :=
      .token (.piece passed blank) written some (by simpa [Nat.add_assoc] using more)
    simpa [Nat.add_assoc] using cut

/-- Where all results of a text are tokens, it is cut into their texts. -/
theorem cut_of_results {chars : List Char} {position : Nat} {tokens : List Token}
    (results : resultsFrom 0 chars position = tokens.map .ok) :
    Cut position chars (textsFrom 0 chars) tokens := by
  -- A bite can take off more than one character, so the induction is on the length.
  induction size : chars.length using Nat.strongRecOn generalizing chars position tokens with
  | ind size ih =>
    subst size
    cases chars with
    | nil =>
      obtain rfl : tokens = [] := List.map_eq_nil_iff.mp results.symm
      exact .ended .nil
    | cons c rest =>
      have sound := sound_bite c rest
      generalize bitten : bite c rest = piece at sound
      cases sound with
      | fault =>
        rw [resultsFrom, bitten] at results
        obtain ⟨token, more, -, wrong, -⟩ := List.map_eq_cons_iff.mp results.symm
        cases wrong
      | @lexeme l _ tail rest written =>
        rw [resultsFrom_lexeme bitten] at results
        obtain ⟨token, tokens, rfl, first, more⟩ := List.map_eq_cons_iff.mp results.symm
        cases first
        rw [textsFrom_lexeme bitten, ← List.cons_append]
        exact .token .nil written (by simp) (ih rest.length (by simp) more.symm rfl)
      | @passed _ tail rest passed =>
        rw [resultsFrom_skip bitten] at results
        rw [textsFrom_skip bitten, ← List.cons_append]
        exact .prepend passed (ih rest.length (by simp) results rfl)

/-- Where positions are recorded, tokens that a text is cut into tile it together with its end. -/
theorem Cut.tiled {chars : List Char} {position : Nat} {texts : List (List Char)}
    {tokens : List Token} (cut : Cut position chars texts tokens)
    (fits : position + byteLength chars ≤ Span.limit) :
    Tiled position chars (tokens ++ [endToken (position + byteLength chars)]) := by
  induction cut with
  | @ended position gap blank =>
    have ended : Tiled position gap _ := .ended blank
    rwa [Span.point, ← Span.ofRange_eq (Nat.le_refl _) fits] at ended
  | @token position gap text rest _ _ _ blank written some _ ih =>
    have size : position + byteLength (gap ++ (text ++ rest)) =
        position + byteLength (gap ++ text) + byteLength rest := by simp [Nat.add_assoc]
    rw [size] at fits ⊢
    have ordered : position + byteLength gap ≤ position + byteLength (gap ++ text) := by simp
    rw [Span.ofRange_eq ordered (Nat.le_of_add_right_le fits)]
    exact .token blank written some (ih fits)

/-! ## Tokens in their text -/

def Span.slice (source : String) (span : Span) : List Char :=
  (String.Pos.Raw.extract source ⟨span.start⟩ ⟨span.stop⟩).toList

structure Span.Within (source : String) (span : Span) : Prop where
  ordered : span.start ≤ span.stop
  bounded : span.stop ≤ source.utf8ByteSize
  start : String.Pos.Raw.IsValid source ⟨span.start⟩
  stop : String.Pos.Raw.IsValid source ⟨span.stop⟩

/-- There are only white space and complete comments between these bytes. -/
def Blank (source : String) (start stop : Nat) : Prop :=
  Gap (Span.slice source ⟨start, stop⟩) (Span.slice source ⟨stop, source.utf8ByteSize⟩)

/-- The tokens are those of the text from a byte on: one after another, each where the
written form of its lexeme stands, with nothing that has a meaning before, between or
behind them. The last one is the end of the text. -/
structure Tiles (source : String) (start : Nat) (tokens : List Token) : Prop where
  /-- Only the end is empty. -/
  ended : ∃ inner, tokens = inner ++ [⟨.eof, .point source.utf8ByteSize⟩] ∧
    ∀ token ∈ inner, token.lexeme ≠ .eof ∧ token.span.start < token.span.stop
  within : ∀ token ∈ tokens, start ≤ token.span.start ∧ token.span.Within source
  ordered : tokens.Pairwise fun a b => a.span.start < b.span.start ∧ a.span.stop ≤ b.span.start
  before : ∀ first ∈ tokens.head?, Blank source start first.span.start
  between : tokens.IsChain fun a b => Blank source a.span.stop b.span.start
  written : ∀ token ∈ tokens, token.lexeme.WrittenAs (token.span.slice source)

section

variable {source : String}

theorem slice_of_split {front text back : List Char}
    (split : source.toList = front ++ (text ++ back)) :
    Span.slice source ⟨byteLength front, byteLength (front ++ text)⟩ = text := by
  have cut := String.extract_of_valid front text back
  rw [List.append_assoc, ← split, String.ofList_toList, ← byteLength_eq_utf8Len,
    ← byteLength_eq_utf8Len, ← byteLength_append] at cut
  rw [Span.slice, cut, String.toList_ofList]

theorem isValid_of_split {front back : List Char} (split : source.toList = front ++ back) :
    String.Pos.Raw.IsValid source ⟨byteLength front⟩ := by
  rw [String.Pos.Raw.isValid_iff_exists_append]
  refine ⟨String.ofList front, String.ofList back, ?_, ?_⟩
  · rw [← String.ofList_append, ← split, String.ofList_toList]
  · rw [String.rawEndPos_ofList, byteLength_eq_utf8Len]

theorem within_of_split {front text back : List Char}
    (split : source.toList = front ++ (text ++ back)) :
    Span.Within source ⟨byteLength front, byteLength (front ++ text)⟩ where
  ordered := by simp
  bounded := by simp [← byteLength_toList, split]
  start := isValid_of_split split
  stop := isValid_of_split (by rw [split, List.append_assoc])

theorem blank_of_split {front gap back : List Char}
    (split : source.toList = front ++ (gap ++ back)) (blank : Gap gap back) :
    Blank source (byteLength front) (byteLength (front ++ gap)) := by
  have behind : source.toList = (front ++ gap) ++ (back ++ []) := by simp [split]
  have size : source.utf8ByteSize = byteLength ((front ++ gap) ++ back) := by
    simp [← byteLength_toList, split]
  rwa [Blank, slice_of_split split, size, slice_of_split behind]

theorem Tiles.end {start : Nat} (whole : Span.Within source ⟨start, source.utf8ByteSize⟩)
    (blank : Blank source start source.utf8ByteSize) :
    Tiles source start [⟨.eof, .point source.utf8ByteSize⟩] where
  ended := ⟨[], rfl, by simp⟩
  within := by
    rw [List.forall_mem_singleton]
    exact ⟨whole.ordered, Nat.le_refl _, Nat.le_refl _, whole.stop, whole.stop⟩
  ordered := List.pairwise_singleton _ _
  before := by
    rintro first ⟨⟩
    exact blank
  between := .singleton _
  written := by
    have empty : source.toList = source.toList ++ ([] ++ []) := by simp
    have none := slice_of_split empty
    rw [List.append_nil, byteLength_toList] at none
    rw [List.forall_mem_singleton, Span.point, none]
    exact .eof

theorem Tiles.cons {start : Nat} {l : Lexeme} {span : Span} {tokens : List Token}
    (behind : start ≤ span.start) (whole : span.Within source) (wide : span.start < span.stop)
    (inside : l ≠ .eof) (blank : Blank source start span.start)
    (written : l.WrittenAs (span.slice source)) (more : Tiles source span.stop tokens) :
    Tiles source start (⟨l, span⟩ :: tokens) where
  ended := by
    obtain ⟨inner, rfl, all⟩ := more.ended
    exact ⟨⟨l, span⟩ :: inner, rfl, List.forall_mem_cons.mpr ⟨⟨inside, wide⟩, all⟩⟩
  within := by
    refine List.forall_mem_cons.mpr ⟨⟨behind, whole⟩, fun token member => ?_⟩
    obtain ⟨later, within⟩ := more.within token member
    exact ⟨by omega, within⟩
  ordered := by
    refine List.pairwise_cons.mpr ⟨fun token member => ?_, more.ordered⟩
    obtain ⟨later, -⟩ := more.within token member
    exact ⟨by simp only; omega, later⟩
  before := by
    rintro first ⟨⟩
    exact blank
  between := List.isChain_cons.mpr ⟨more.before, more.between⟩
  written := List.forall_mem_cons.mpr ⟨written, more.written⟩

theorem Tiled.tiles {position : Nat} {chars : List Char} {tokens : List Token}
    (tiled : Tiled position chars tokens) {front : List Char}
    (split : source.toList = front ++ chars) (atFront : position = byteLength front) :
    Tiles source position tokens := by
  induction tiled generalizing front with
  | @ended position gap blank =>
    -- The gap goes up to the last byte, where the end stands.
    rw [← List.append_nil gap] at split
    have size : byteLength (front ++ gap) = source.utf8ByteSize := by
      simp [← byteLength_toList, split]
    have whole := within_of_split split
    have blank := blank_of_split split blank
    rw [size] at whole blank
    rw [atFront, ← byteLength_append, size]
    exact .end whole blank
  | @token position gap text rest l tokens blank written some more ih =>
    -- The text is cut twice: behind the gap for this token, behind the token for the others.
    have behind : source.toList = (front ++ gap) ++ (text ++ rest) := by simp [split]
    have ahead : source.toList = (front ++ (gap ++ text)) ++ rest := by simp [split]
    have tail := ih ahead (by simp [atFront])
    have wide := byteLength_pos some
    have inside : l ≠ .eof := by
      rintro rfl
      cases written
      exact some rfl
    have placed := slice_of_split behind
    have whole := within_of_split behind
    rw [List.append_assoc, byteLength_append, byteLength_append front, ← atFront] at placed whole
    have blank := blank_of_split split blank
    rw [byteLength_append, ← atFront] at blank
    refine .cons (Nat.le_add_right _ _) whole ?_ inside blank ?_ tail
    · simp only [byteLength_append]
      omega
    · rwa [placed]

end

/-- The tokens of a text tile it: they follow one another from its first byte to its last,
each where the written form of its lexeme stands, and all the rest is white space and
complete comments. -/
theorem tiles_of_tokenize {source : String} {tokens : List Token}
    (lexed : tokenize source = .ok tokens) (short : source.utf8ByteSize < 2 ^ 32) :
    Tiles source 0 tokens := by
  obtain ⟨inner, results, rfl⟩ := results_of_tokenize lexed
  have fits : 0 + byteLength source.toList ≤ Span.limit := by
    rw [byteLength_toList, Span.limit]
    omega
  have tiled := (cut_of_results results).tiled fits
  rw [Nat.zero_add, byteLength_toList] at tiled
  exact tiled.tiles (List.nil_append _).symm rfl

theorem tiles_of_tokenize_wide_characters :
    let source := "/* ü */x >>>= 'é\\n' // ∞"
    let tokens : List Token := [⟨.identifier "x", ⟨8, 9⟩⟩,
      ⟨.punctuator .shiftRightZeroAssign, ⟨10, 14⟩⟩, ⟨.string "é\n", ⟨15, 21⟩⟩, ⟨.eof, ⟨28, 28⟩⟩]
    tokenize source = .ok tokens ∧ source.utf8ByteSize < 2 ^ 32 ∧ Tiles source 0 tokens := by
  intro source tokens
  have lexed : tokenize source = .ok tokens := by cbv
  have short : source.utf8ByteSize < 2 ^ 32 := by decide
  exact ⟨lexed, short, tiles_of_tokenize lexed short⟩

end StepScript
