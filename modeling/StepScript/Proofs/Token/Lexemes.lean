import StepScript.Proofs.Number.Numeral
import StepScript.Proofs.Token.Lexing

/-! What the pieces of a text are.

A piece that the lexer takes off a text as a lexeme is the written form of this lexeme.
The pieces that it passes over are white space and complete comments.
-/

set_option autoImplicit false

namespace StepScript

inductive Decodes (quote : Char) : List Char → List Char → Prop where
  | nil : Decodes quote [] []
  | plain {c : Char} {rest text : List Char} (noQuote : c ≠ quote) (noSlash : c ≠ '\\')
    (noFeed : c ≠ '\n') (more : Decodes quote rest text) : Decodes quote (c :: rest) (c :: text)
  | escape {c meant : Char} {rest text : List Char} (known : unescapeChar? c = some meant)
    (more : Decodes quote rest text) : Decodes quote ('\\' :: c :: rest) (meant :: text)

/-- The written forms of a lexeme. -/
inductive Lexeme.WrittenAs : Lexeme → List Char → Prop where
  | keyword (k : Keyword) : WrittenAs (.keyword k) k.text.toList
  | punctuator (p : Punctuator) : WrittenAs (.punctuator p) p.text.toList
  | identifier {c : Char} {tail : List Char} (start : isNameStart c = true)
    (all : ∀ d ∈ tail, isNameChar d = true)
    (free : ∀ k : Keyword, k.text ≠ String.ofList (c :: tail)) :
    WrittenAs (.identifier (String.ofList (c :: tail))) (c :: tail)
  | number {x : Float} {chars : List Char} (numeral : Number.Numeral chars x) :
    WrittenAs (.number x) chars
  | string {quote : Char} {inside text : List Char} (quoteIs : quote = '"' ∨ quote = '\'')
    (decodes : Decodes quote inside text) :
    WrittenAs (.string (String.ofList text)) (quote :: (inside ++ [quote]))
  | eof : WrittenAs .eof []

/-- A piece that is passed over, and the text behind it. A line comment goes on up to the
line feed, and a block comment up to the first mark that ends it. -/
inductive Passed : List Char → List Char → Prop where
  | blank {c : Char} {rest : List Char} (blank : Text.isGap c = true) : Passed [c] rest
  | line {comment rest : List Char} (inside : '\n' ∉ comment)
    (ended : ∀ c ∈ rest.head?, c = '\n') : Passed ('/' :: '/' :: comment) rest
  | block {comment rest : List Char} (inside : ¬['*', '/'] <:+: comment) :
    Passed ('/' :: '*' :: (comment ++ ['*', '/'])) rest

inductive Bite.Sound : Bite → List Char → Prop where
  | fault {fault : LexFault} {extra reach : Nat} {chars : List Char} :
    Sound ⟨some (.error fault), extra, reach⟩ chars
  | lexeme {l : Lexeme} {c : Char} {tail rest : List Char} (written : l.WrittenAs (c :: tail)) :
    Sound (.lexeme l tail.length) (c :: (tail ++ rest))
  | passed {c : Char} {tail rest : List Char} (passed : Passed (c :: tail) rest) :
    Sound (.skip tail.length) (c :: (tail ++ rest))

/-! ## Words and punctuators -/

theorem Keyword.text_of_ofText? {word : String} {k : Keyword} (found : ofText? word = some k) :
    k.text = word := by
  unfold ofText? at found
  have same := List.find?_some found
  exact beq_iff_eq.mp same

theorem Keyword.text_ne_of_ofText? {word : String} (none : ofText? word = none) (k : Keyword) :
    k.text ≠ word := by
  have listed : k ∈ all := by
    cases k <;> decide
  intro same
  exact List.find?_eq_none.mp none k listed (beq_iff_eq.mpr same)

theorem sound_biteName {c : Char} (start : isNameStart c = true) (rest : List Char) :
    (biteName c rest).Sound (c :: rest) := by
  have split := List.takeWhile_append_dropWhile (p := isNameChar) (l := rest)
  unfold biteName
  simp only
  generalize is : rest.takeWhile isNameChar = tail at split
  rw [← split]
  split
  · next k found =>
    have text := Keyword.text_of_ofText? found
    apply Bite.Sound.lexeme
    have written := Lexeme.WrittenAs.keyword k
    rwa [text, String.toList_ofList] at written
  · next none =>
    refine .lexeme (.identifier start (fun d member => ?_) (Keyword.text_ne_of_ofText? none))
    rw [← is] at member
    exact List.mem_takeWhile_imp member

theorem sound_bitePunctuator (c : Char) (rest : List Char) :
    (bitePunctuator c rest).Sound (c :: rest) := by
  unfold bitePunctuator
  split
  · next p found =>
    unfold Punctuator.longest? at found
    have begins := List.find?_some found
    obtain ⟨back, split⟩ := List.isPrefixOf_iff_prefix.mp begins
    have written := Lexeme.WrittenAs.punctuator p
    have length : p.text.length = p.text.toList.length := String.length_toList.symm
    rw [length]
    generalize p.text.toList = text at *
    cases text with
    -- The length of a bite counts from its second character, so there must be a first one.
    | nil => cases p <;> cases written
    | cons d tail =>
      cases split
      exact .lexeme written
  · exact .fault

/-! ## Numbers -/

theorem exists_of_numberLength? {chars : List Char} {length : Nat}
    (found : numberLength? chars = some length) :
    ∃ text rest x, chars = text ++ rest ∧ Number.Numeral text x ∧ text.length = length := by
  unfold numberLength? at found
  split at found
  · next values hex =>
    cases found
    obtain ⟨mark, digits, rest, rfl, markIs, all, some, rfl⟩ := Number.exists_of_hexPrefix hex
    exact ⟨'0' :: mark :: digits, rest, _, rfl, .hexadecimal markIs all some, by
      rw [all.length_filterMap]
      rfl⟩
  · cases is : Number.decimalPrefix chars with
    | none =>
      rw [is] at found
      cases found
    | some decimal =>
      rw [is] at found
      cases found
      obtain ⟨text, rest, rfl, laid, length⟩ := Number.exists_of_decimalPrefix is
      exact ⟨text, rest, _, rfl, .decimal laid, length⟩

theorem sound_biteNumber {chars : List Char} {length : Nat}
    (found : numberLength? chars = some length) : (biteNumber chars length).Sound chars := by
  obtain ⟨text, rest, x, rfl, numeral, rfl⟩ := exists_of_numberLength? found
  unfold biteNumber
  simp only [List.take_left]
  split
  -- What is read is the numeral alone, without the text behind it.
  · rw [numeral.readChars]
    obtain ⟨c, tail, rfl, -⟩ := numeral.exists_cons
    exact .lexeme (.number numeral)
  · exact .fault

/-! ## Strings -/

theorem exists_of_map_eq_ok {ε α β : Type} {f : α → β} {x : Except ε α} {b : β}
    (mapped : x.map f = .ok b) : ∃ a, x = .ok a ∧ f a = b := by
  cases x with
  | error e => cases mapped
  | ok a =>
    cases mapped
    exact ⟨a, rfl, rfl⟩

/-- What is read as the inside of a closed literal decodes if its escapes are known. -/
theorem exists_of_stringLength {quote : Char} {rest : List Char} {count : Nat}
    (closed : stringLength quote rest = (true, count)) :
    ∃ inside back, rest = inside ++ quote :: back ∧ count = inside.length + 1 ∧
      ∀ text, unescape inside = .ok text → Decodes quote inside text := by
  -- A backslash takes the next character with it, so the cases are those of the reading.
  fun_induction stringLength quote rest generalizing count with
  | case1 | case3 | case4 | case5 => cases closed
  | case2 rest =>
    cases closed
    refine ⟨[], rest, rfl, rfl, ?_⟩
    rintro text ⟨⟩
    exact .nil
  | case6 escaped rest _ closed' count' read _ _ ih =>
    cases closed
    obtain ⟨inside, back, rfl, rfl, decodes⟩ := ih read
    refine ⟨'\\' :: escaped :: inside, back, rfl, rfl, fun text decoded => ?_⟩
    rw [unescape] at decoded
    split at decoded
    · next meant known =>
      obtain ⟨text, more, rfl⟩ := exists_of_map_eq_ok decoded
      exact .escape known (decodes text more)
    · cases decoded
  | case7 c rest noQuote noFeed noSlash closed' count' read ih =>
    cases closed
    obtain ⟨inside, back, rfl, rfl, decodes⟩ := ih read
    refine ⟨c :: inside, back, rfl, rfl, fun text decoded => ?_⟩
    rw [unescape] at decoded
    · obtain ⟨text, more, rfl⟩ := exists_of_map_eq_ok decoded
      exact .plain noQuote noSlash noFeed (decodes text more)
    · rintro _ _ rfl
      exact absurd rfl noSlash

theorem sound_biteString {quote : Char} (quoteIs : quote = '"' ∨ quote = '\'')
    (rest : List Char) : (biteString quote rest).Sound (quote :: rest) := by
  unfold biteString
  cases read : stringLength quote rest with
  | mk closed count =>
    cases closed with
    | false => exact .fault
    | true =>
      obtain ⟨inside, back, rfl, rfl, decodes⟩ := exists_of_stringLength read
      simp only [if_true, Nat.add_sub_cancel, List.take_left]
      split
      · next text decoded =>
        have sound : Bite.Sound _ (quote :: (inside ++ [quote] ++ back)) :=
          .lexeme (.string quoteIs (decodes text decoded))
        simpa using sound
      · exact .fault

/-! ## Comments -/

theorem exists_of_commentLength? {chars : List Char} {count : Nat}
    (found : commentLength? chars = some count) :
    ∃ comment rest, chars = comment ++ '*' :: '/' :: rest ∧ count = comment.length + 2 ∧
      ¬['*', '/'] <:+: comment := by
  fun_induction commentLength? chars generalizing count with
  | case1 => cases found
  | case2 rest =>
    cases found
    exact ⟨[], rest, rfl, rfl, by simp⟩
  | case3 c rest other ih =>
    obtain ⟨count, more, rfl⟩ := Option.map_eq_some_iff.mp found
    obtain ⟨comment, back, rfl, rfl, inside⟩ := ih more
    refine ⟨c :: comment, back, rfl, rfl, ?_⟩
    -- A mark at the front would have ended the comment at once.
    rw [List.infix_cons_iff, not_or]
    refine ⟨?_, inside⟩
    rintro ⟨behind, same⟩
    obtain ⟨rfl, rfl⟩ := List.cons.inj same
    exact other _ rfl rfl

theorem sound_biteSlash (rest : List Char) : (biteSlash rest).Sound ('/' :: rest) := by
  unfold biteSlash
  split
  · next line =>
    have split := List.takeWhile_append_dropWhile (p := (· != '\n')) (l := line)
    have inside : '\n' ∉ line.takeWhile (· != '\n') := by
      intro member
      have other := List.mem_takeWhile_imp member
      cases other
    have ended : ∀ c ∈ (line.dropWhile (· != '\n')).head?, c = '\n' := by
      intro c first
      have stop := List.head?_dropWhile_not (· != '\n') line
      rw [Option.mem_def.mp first] at stop
      simpa using stop
    have sound := Bite.Sound.passed (.line inside ended)
    simpa [Nat.add_comm, split] using sound
  · next body =>
    split
    · next count found =>
      obtain ⟨comment, back, rfl, rfl, inside⟩ := exists_of_commentLength? found
      have sound : Bite.Sound _ ('/' :: ('*' :: (comment ++ ['*', '/']) ++ back)) :=
        .passed (.block inside)
      simpa [Nat.add_comm] using sound
    · exact .fault
  · exact sound_bitePunctuator '/' _

/-! ## All pieces -/

theorem sound_bite (c : Char) (rest : List Char) : (bite c rest).Sound (c :: rest) := by
  unfold bite
  split
  · next blank =>
    have sound : Bite.Sound (.skip ([] : List Char).length) (c :: ([] ++ rest)) :=
      .passed (.blank blank)
    exact sound
  split
  · next slash =>
    rw [slash]
    exact sound_biteSlash rest
  split
  · next quoteIs => exact sound_biteString quoteIs rest
  split
  · next start => exact sound_biteName start rest
  split
  · next length found => exact sound_biteNumber found
  · exact sound_bitePunctuator c rest

end StepScript
