import StepScript.Proofs.Token.Lexemes

/-! Lexemes as text.

Every lexeme but the end has a text, and the lexer takes this text off as the lexeme if
what follows cannot belong to it. A text of lexemes with spaces between them is
therefore lexed to these lexemes.
-/

set_option autoImplicit false

namespace StepScript

def isName (text : String) : Bool :=
  match text.toList with
  | [] => false
  | c :: rest => isNameStart c && rest.all isNameChar && (Keyword.ofText? text).isNone

def Number.isPlain (x : Float) : Bool :=
  !isNegative x && magnitude x != .nan

/-! ## Texts that are lexed -/

/-- The lexer takes these characters off as the lexeme when that rest follows. -/
inductive Taken (lexeme : Lexeme) : List Char → List Char → Prop where
  | intro {c : Char} {tail rest : List Char}
    (bitten : bite c (tail ++ rest) = .lexeme lexeme tail.length) : Taken lexeme (c :: tail) rest

inductive Lexed : List Char → List Lexeme → Prop where
  | nil : Lexed [] []
  | gap {c : Char} {rest : List Char} {lexemes : List Lexeme} (blank : Text.isGap c = true)
    (more : Lexed rest lexemes) : Lexed (c :: rest) lexemes
  | token {front rest : List Char} {lexeme : Lexeme} {lexemes : List Lexeme}
    (taken : Taken lexeme front rest) (more : Lexed rest lexemes) :
    Lexed (front ++ rest) (lexeme :: lexemes)

theorem Lexed.resultsFrom {chars : List Char} {lexemes : List Lexeme} (lexed : Lexed chars lexemes)
    (position : Nat) : ∃ tokens : List Token,
      resultsFrom 0 chars position = tokens.map .ok ∧ tokens.map (·.lexeme) = lexemes := by
  induction lexed generalizing position with
  | nil => exact ⟨[], rfl, rfl⟩
  | @gap c rest lexemes blank more ih =>
    obtain ⟨tokens, results, same⟩ := ih (position + c.utf8Size)
    refine ⟨tokens, ?_, same⟩
    rw [← results, StepScript.resultsFrom, bite, if_pos blank]
    rfl
  | @token front rest lexeme lexemes taken more ih =>
    obtain ⟨bitten⟩ := taken
    next c tail =>
    obtain ⟨tokens, results, same⟩ := ih (position + byteLength (c :: tail))
    refine ⟨⟨lexeme, .ofRange position (position + byteLength (c :: tail))⟩ :: tokens, ?_, ?_⟩
    · rw [List.map_cons, ← results, List.cons_append, resultsFrom_lexeme bitten]
    · rw [List.map_cons, same]

theorem Lexed.lexResults {source : String} {lexemes : List Lexeme}
    (lexed : Lexed source.toList lexemes) : ∃ tokens : List Token,
      lexResults source = tokens.map .ok ∧ tokens.map (·.lexeme) = lexemes :=
  lexed.resultsFrom 0

/-! ## Punctuators -/

theorem taken_spaced (p : Punctuator) (rest : List Char) :
    Taken (.punctuator p) p.text.toList (' ' :: rest) := by
  cases p <;> exact .intro rfl

/-- Whether no other punctuator begins with this one, nor does a comment or a number. -/
def Punctuator.isAlone (p : Punctuator) : Bool :=
  p == openBrace || p == closeBrace || p == colon || p == comma || p == semicolon

theorem taken_alone {p : Punctuator} (alone : p.isAlone = true) (rest : List Char) :
    Taken (.punctuator p) p.text.toList rest := by
  cases p <;> first | exact .intro rfl | cases alone

theorem taken_minus {c : Char} (first : c ∈ Number.firstChars) (rest : List Char) :
    Taken (.punctuator .minus) ['-'] (c :: rest) := by
  simp only [Number.firstChars, Number.decimalDigits, List.mem_cons, List.not_mem_nil,
    or_false] at first
  rcases first with rfl | rfl | rfl | rfl | rfl | rfl | rfl | rfl | rfl | rfl | rfl <;>
    exact .intro rfl

/-! ## Words and numbers -/

/-- What follows cannot belong to a name or a number. -/
def Apart (rest : List Char) : Prop :=
  ∀ c ∈ rest.head?, isNameChar c = false ∧ c ≠ '.'

theorem Apart.cons {c : Char} (rest : List Char) (other : isNameChar c = false)
    (noPoint : c ≠ '.') :
    Apart (c :: rest) := by
  rintro d ⟨⟩
  exact ⟨other, noPoint⟩

theorem Apart.ends {rest : List Char} (apart : Apart rest) : Number.Ends rest := by
  intro c first
  obtain ⟨other, noPoint⟩ := apart c first
  simp only [isNameChar, Bool.or_eq_false_iff] at other
  exact ⟨other.1.1, noPoint⟩

theorem takeWhile_isNameChar {tail rest : List Char} (all : tail.all isNameChar = true)
    (apart : Apart rest) : (tail ++ rest).takeWhile isNameChar = tail := by
  induction tail with
  | nil =>
    cases rest with
    | nil => rfl
    | cons c rest => simp [(apart c rfl).1]
  | cons c tail ih =>
    rw [List.all_cons, Bool.and_eq_true] at all
    rw [List.cons_append, List.takeWhile_cons, if_pos all.1, ih all.2]

theorem bite_word {c : Char} (start : isNameStart c = true) (rest : List Char) :
    bite c rest = biteName c rest := by
  have noGap : Text.isGap c = false := by
    cases gap : Text.isGap c with
    | false => rfl
    | true =>
      simp only [Text.isGap, Bool.or_eq_true, beq_iff_eq] at gap
      rcases gap with (((rfl | rfl) | rfl) | rfl) | rfl <;> cases start
  have noSlash : c ≠ '/' := by
    rintro rfl
    cases start
  have noQuote : ¬(c = '"' ∨ c = '\'') := by
    rintro (rfl | rfl) <;> cases start
  rw [bite, noGap, if_neg Bool.false_ne_true, if_neg noSlash, if_neg noQuote, if_pos start]

theorem taken_keyword (k : Keyword) {rest : List Char} (apart : Apart rest) :
    Taken (.keyword k) k.text.toList rest := by
  have listed : Keyword.ofText? k.text = some k := by
    cases k <;> rfl
  obtain ⟨c, tail, is, start, all⟩ : ∃ c tail, k.text.toList = c :: tail ∧ isNameStart c = true ∧
      tail.all isNameChar = true := by
    cases k <;> exact ⟨_, _, rfl, rfl, rfl⟩
  have word : String.ofList (c :: tail) = k.text := by
    rw [← is, String.ofList_toList]
  rw [is]
  constructor
  rw [bite_word start, biteName, takeWhile_isNameChar all apart]
  simp only [word, listed]

theorem taken_name {name : String} (valid : isName name = true) {rest : List Char}
    (apart : Apart rest) : Taken (.identifier name) name.toList rest := by
  unfold isName at valid
  split at valid
  · cases valid
  · next c tail is =>
    simp only [Bool.and_eq_true, Option.isNone_iff_eq_none] at valid
    obtain ⟨⟨start, all⟩, free⟩ := valid
    have word : String.ofList (c :: tail) = name := by
      rw [← is, String.ofList_toList]
    rw [is]
    constructor
    rw [bite_word start, biteName, takeWhile_isNameChar all apart]
    simp only [word, free]

def beginsNumber (c : Char) : Bool :=
  !Text.isGap c && c != '/' && c != '"' && c != '\'' && !isNameStart c

theorem bite_number {c : Char} (first : c ∈ Number.firstChars) {rest : List Char} {length : Nat}
    (found : numberLength? (c :: rest) = some length) :
    bite c rest = biteNumber (c :: rest) length := by
  have all : Number.firstChars.all beginsNumber = true := by decide
  have begins := List.all_eq_true.mp all c first
  simp only [beginsNumber, Bool.and_eq_true, Bool.not_eq_true', bne_iff_ne] at begins
  obtain ⟨⟨⟨⟨noGap, noSlash⟩, noQuote⟩, noTick⟩, noName⟩ := begins
  rw [bite, noGap, if_neg Bool.false_ne_true, if_neg noSlash, if_neg (by simp [noQuote, noTick]),
    noName, if_neg Bool.false_ne_true, found]

theorem Number.hexDigit?_eq_none {c : Char} (other : isNameChar c = false) : hexDigit? c = none := by
  simp only [isNameChar, Char.isAlphanum, Char.isAlpha, Bool.or_eq_false_iff] at other
  obtain ⟨⟨⟨⟨noUpper, noLower⟩, noDigit⟩, -⟩, -⟩ := other
  rw [hexDigit?, if_neg (by simp [noDigit]), if_neg, if_neg]
  · rintro ⟨low, high⟩
    have upper : c.isUpper = true := by
      simp only [Char.isUpper, decide_eq_true_eq]
      exact ⟨low, UInt32.le_trans high (by decide)⟩
    rw [noUpper] at upper
    cases upper
  · rintro ⟨low, high⟩
    have lower : c.isLower = true := by
      simp only [Char.isLower, Bool.and_eq_true, decide_eq_true_eq]
      exact ⟨low, UInt32.le_trans high (by decide)⟩
    rw [noLower] at lower
    cases lower

theorem Number.AllHexDigits.hexDigits_append {digits rest : List Char} (all : AllHexDigits digits)
    (apart : Apart rest) : Number.hexDigits (digits ++ rest) = digits.filterMap hexDigit? := by
  rw [Number.hexDigits, List.takeWhile_append_of_pos all]
  cases rest with
  | nil => simp
  | cons c rest => simp [hexDigit?_eq_none (apart c rfl).1]

/-- A numeral is found with its length, where nothing follows that could belong to it. -/
theorem numberLength?_append {x : Float} {text rest : List Char} (numeral : Number.Numeral text x)
    (apart : Apart rest) : numberLength? (text ++ rest) = some text.length := by
  cases numeral with
  | @hexadecimal mark digits markIs all some =>
    have length := all.length_filterMap
    have filled := all.filterMap_ne_nil some
    rw [← all.hexDigits_append apart] at filled length
    have found := Number.hexPrefix_eq markIs filled
    rw [List.cons_append, List.cons_append, numberLength?, found]
    simp [length]
  | decimal laid =>
    rw [numberLength?, laid.hexPrefix_append apart.ends, laid.decimalPrefix_append apart.ends]
    rfl

theorem taken_numeral {x : Float} {text rest : List Char} (numeral : Number.Numeral text x)
    (apart : Apart rest) : Taken (.number x) text rest := by
  have length := numberLength?_append numeral apart
  have whole := numeral.readChars
  obtain ⟨c, tail, rfl, first⟩ := numeral.exists_cons
  rw [List.cons_append] at length
  have stops : rest.takeWhile isNameChar = [] := @takeWhile_isNameChar [] rest rfl apart
  constructor
  rw [bite_number first length, biteNumber]
  simp [stops, whole]

theorem taken_number {x : Float} (plain : Number.isPlain x = true) {rest : List Char}
    (apart : Apart rest) : Taken (.number x) (Number.literalChars x) rest := by
  simp only [Number.isPlain, Bool.and_eq_true, Bool.not_eq_true', bne_iff_ne] at plain
  obtain ⟨decimal, laid, rfl⟩ := Number.exists_laidOut plain.2 plain.1
  exact taken_numeral (.decimal laid) apart

/-! ## Strings -/

section

variable {quote : Char} {inside text : List Char}

theorem stringLength_of_decodes (quoteIs : quote = '"' ∨ quote = '\'')
    (decodes : Decodes quote inside text) (rest : List Char) :
    stringLength quote (inside ++ quote :: rest) = (true, inside.length + 1) := by
  induction decodes with
  | nil =>
    rw [List.nil_append, stringLength.eq_def]
    simp
  | plain noQuote noSlash noFeed _ ih =>
    rw [List.cons_append, stringLength.eq_def]
    simp [noQuote, noSlash, noFeed, ih]
  | @escape c meant inside text known _ ih =>
    -- A backslash is no quote, and with a line feed behind it there is no escape.
    have noQuote : '\\' ≠ quote := by
      rintro rfl
      rcases quoteIs with same | same <;> cases same
    have noFeed : c ≠ '\n' := by
      rintro rfl
      cases known
    rw [List.cons_append, List.cons_append, stringLength.eq_def]
    simp [noQuote, noFeed, ih]

theorem unescape_of_decodes (decodes : Decodes quote inside text) : unescape inside = .ok text := by
  induction decodes with
  | nil => rfl
  | plain _ noSlash _ _ ih =>
    rw [unescape, ih]
    · rfl
    · rintro _ _ rfl
      exact absurd rfl noSlash
  | escape known _ ih =>
    rw [unescape, known, ih]
    rfl

theorem taken_decodes (quoteIs : quote = '"' ∨ quote = '\'')
    (decodes : Decodes quote inside text) (rest : List Char) :
    Taken (.string (String.ofList text)) (quote :: (inside ++ [quote])) rest := by
  have begins (rest : List Char) : bite quote rest = biteString quote rest := by
    rcases quoteIs with rfl | rfl <;> rfl
  constructor
  rw [begins, List.append_assoc, List.singleton_append, biteString,
    stringLength_of_decodes quoteIs decodes]
  simp [unescape_of_decodes decodes]

end

def escapes : List (Char × Char) :=
  [('"', '"'), ('\\', '\\'), ('\n', 'n'), ('\t', 't'), ('\r', 'r')]

theorem quotedChar_cases (c : Char) :
    (∃ mark, (c, mark) ∈ escapes ∧ Text.quotedChar c = ['\\', mark]) ∨
      (Text.quotedChar c = [c] ∧ c ≠ '"' ∧ c ≠ '\\' ∧ c ≠ '\n') := by
  unfold Text.quotedChar
  split
  · next is => exact .inl ⟨'"', by simp [escapes, is], rfl⟩
  split
  · next is => exact .inl ⟨'\\', by simp [escapes, is], rfl⟩
  split
  · next is => exact .inl ⟨'n', by simp [escapes, is], rfl⟩
  split
  · next is => exact .inl ⟨'t', by simp [escapes, is], rfl⟩
  split
  · next is => exact .inl ⟨'r', by simp [escapes, is], rfl⟩
  · next noQuote noSlash noFeed _ _ => exact .inr ⟨rfl, noQuote, noSlash, noFeed⟩

theorem decodes_quotedChar (c : Char) {rest text : List Char} (more : Decodes '"' rest text) :
    Decodes '"' (Text.quotedChar c ++ rest) (c :: text) := by
  rcases quotedChar_cases c with ⟨mark, listed, is⟩ | ⟨is, noQuote, noSlash, noFeed⟩
  · have all : escapes.all (fun escape => unescapeChar? escape.2 == some escape.1) = true := by
      decide
    have meant : unescapeChar? mark = some c :=
      beq_iff_eq.mp (List.all_eq_true.mp all (c, mark) listed)
    rw [is]
    exact .escape meant more
  · rw [is]
    exact .plain noQuote noSlash noFeed more

theorem decodes_quoted (chars : List Char) :
    Decodes '"' (chars.flatMap Text.quotedChar) chars := by
  induction chars with
  | nil => exact .nil
  | cons c chars ih => exact decodes_quotedChar c ih

/-- A quoted text is read as the text, whatever follows. -/
theorem taken_string (text : String) (rest : List Char) :
    Taken (.string text) (Text.quotedChars text.toList) rest := by
  have taken := taken_decodes (.inl rfl) (decodes_quoted text.toList) rest
  rwa [String.ofList_toList] at taken

/-! ## Lexemes with spaces -/

namespace Lexeme

def isWritable : Lexeme → Bool
  | identifier name => isName name
  | number x => Number.isPlain x
  | eof => false
  | keyword _ | punctuator _ | string _ => true

def chars : Lexeme → List Char
  | keyword k => k.text.toList
  | punctuator p => p.text.toList
  | identifier name => name.toList
  | number x => Number.literalChars x
  | string text => Text.quotedChars text.toList
  | eof => []

end Lexeme

def spaced (lexemes : List Lexeme) : String :=
  String.ofList (lexemes.flatMap fun lexeme => lexeme.chars ++ [' '])

theorem Lexeme.taken_chars {lexeme : Lexeme} (writable : lexeme.isWritable = true)
    (rest : List Char) : Taken lexeme lexeme.chars (' ' :: rest) := by
  have apart : Apart (' ' :: rest) := .cons rest rfl (by decide)
  cases lexeme with
  | keyword k => exact taken_keyword k apart
  | punctuator p => exact taken_spaced p rest
  | identifier name => exact taken_name writable apart
  | number x => exact taken_number writable apart
  | string text => exact taken_string text _
  | eof => cases writable

theorem lexed_spaced {lexemes : List Lexeme} (writable : lexemes.all Lexeme.isWritable = true) :
    Lexed (spaced lexemes).toList lexemes := by
  rw [spaced, String.toList_ofList]
  induction lexemes with
  | nil => exact .nil
  | cons lexeme lexemes ih =>
    rw [List.all_cons, Bool.and_eq_true] at writable
    rw [List.flatMap_cons, List.append_assoc]
    exact .token (lexeme.taken_chars writable.1 _) (.gap rfl (ih writable.2))

end StepScript
