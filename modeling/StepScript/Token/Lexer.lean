import StepScript.Token.Basic

/-! From text to tokens.

The lexer takes one bite after another off the text. A bite is the longest piece
that is white space, a comment or a token, or the piece that a mistake covers; it
always has at least one character, so lexing ends. After a mistake lexing goes on
behind the bite.
-/

set_option autoImplicit false

namespace StepScript

/-- One piece of text: what it is, `none` for white space and comments, how many
characters after the first one it takes, and how many after the first one its
span covers. -/
structure Bite where
  result : Option (Except LexFault Lexeme)
  extra : Nat
  reach : Nat

namespace Bite

def skip (extra : Nat) : Bite :=
  ⟨none, extra, extra⟩

def lexeme (lexeme : Lexeme) (extra : Nat) : Bite :=
  ⟨some (.ok lexeme), extra, extra⟩

def fault (fault : LexFault) (extra : Nat) : Bite :=
  ⟨some (.error fault), extra, extra⟩

end Bite

def isNameStart (c : Char) : Bool :=
  c.isAlpha || c == '_' || c == '$'

def isNameChar (c : Char) : Bool :=
  c.isAlphanum || c == '_' || c == '$'

def commentLength? : List Char → Option Nat
  | [] => none
  | '*' :: '/' :: _ => some 2
  | _ :: rest => (commentLength? rest).map (· + 1)

/-- Reads the inside of a string literal: whether it is closed, and the number of
characters read, the closing quote included. An open literal ends before a line
feed, before the end, and before a backslash in front of either. -/
def stringLength (quote : Char) : List Char → Bool × Nat
  | [] => (false, 0)
  | c :: rest =>
    if c = quote then (true, 1)
    else if c = '\n' then (false, 0)
    else if c = '\\' then
      match rest with
      | [] => (false, 0)
      | escaped :: rest =>
        if escaped = '\n' then (false, 0)
        else
          let (closed, count) := stringLength quote rest
          (closed, count + 2)
    else
      let (closed, count) := stringLength quote rest
      (closed, count + 1)

def unescapeChar? (c : Char) : Option Char :=
  match c with
  | 'n' => some '\n'
  | 't' => some '\t'
  | 'r' => some '\r'
  | 'v' => some '\x0b'
  | 'b' => some '\x08'
  | 'f' => some '\x0c'
  | '0' => some '\x00'
  | '\\' => some '\\'
  | '\'' => some '\''
  | '"' => some '"'
  | _ => none

def unescape : List Char → Except Char (List Char)
  | [] => .ok []
  | '\\' :: c :: rest =>
    match unescapeChar? c with
    | some meant => (unescape rest).map (meant :: ·)
    | none => .error c
  | c :: rest => (unescape rest).map (c :: ·)

def numberLength? (chars : List Char) : Option Nat :=
  match Number.hexPrefix chars with
  | some digits => some (digits.length + 2)
  | none => (Number.decimalPrefix chars).map (·.2)

def biteNumber (chars : List Char) (length : Nat) : Bite :=
  let literal := chars.take length
  let tail := (chars.drop length).takeWhile isNameChar
  if tail.isEmpty then
    .lexeme (.number (Number.readChars literal)) (length - 1)
  else
    ⟨some (.error (.invalidNumber (String.ofList (literal ++ tail)))), length - 1,
      length + tail.length - 1⟩

def biteString (quote : Char) (rest : List Char) : Bite :=
  let (closed, count) := stringLength quote rest
  if closed then
    match unescape (rest.take (count - 1)) with
    | .ok text => .lexeme (.string (String.ofList text)) count
    | .error found => .fault (.unknownEscape found) count
  else .fault .unterminatedString count

def biteName (c : Char) (rest : List Char) : Bite :=
  let tail := rest.takeWhile isNameChar
  let word := String.ofList (c :: tail)
  match Keyword.ofText? word with
  | some keyword => .lexeme (.keyword keyword) tail.length
  | none => .lexeme (.identifier word) tail.length

def bitePunctuator (c : Char) (rest : List Char) : Bite :=
  match Punctuator.longest? (c :: rest) with
  | some p => .lexeme (.punctuator p) (p.text.length - 1)
  | none => .fault (.unexpectedCharacter c) 0

def biteSlash (rest : List Char) : Bite :=
  match rest with
  | '/' :: line => .skip (1 + (line.takeWhile (· != '\n')).length)
  | '*' :: body =>
    match commentLength? body with
    | some count => .skip (1 + count)
    | none => .fault .unterminatedComment rest.length
  | _ => bitePunctuator '/' rest

def bite (c : Char) (rest : List Char) : Bite :=
  if Text.isGap c then .skip 0
  else if c = '/' then biteSlash rest
  else if c = '"' ∨ c = '\'' then biteString c rest
  else if isNameStart c then biteName c rest
  else match numberLength? (c :: rest) with
    | some length => biteNumber (c :: rest) length
    | none => bitePunctuator c rest

def byteLength (chars : List Char) : Nat :=
  chars.foldr (fun c sum => c.utf8Size + sum) 0

/-- Puts a bite's result at its place: the bite begins at `position` with the
first character of `chars`. -/
def locate (result : Except LexFault Lexeme) (reach : Nat) (chars : List Char)
    (position : Nat) : Except LexError Token :=
  let span := Span.ofRange position (position + byteLength (chars.take (reach + 1)))
  match result with
  | .ok lexeme => .ok ⟨lexeme, span⟩
  | .error fault => .error ⟨fault, span⟩

/-- All tokens and mistakes of the text after its first `skip` characters, which
belong to a bite already taken. -/
def resultsFrom : Nat → List Char → Nat → List (Except LexError Token)
  | _, [], _ => []
  | skip + 1, c :: rest, position => resultsFrom skip rest (position + c.utf8Size)
  | 0, c :: rest, position =>
    let piece := bite c rest
    match piece.result with
    | none => resultsFrom piece.extra rest (position + c.utf8Size)
    | some result =>
      locate result piece.reach (c :: rest) position ::
        resultsFrom piece.extra rest (position + c.utf8Size)

def lexResults (source : String) : List (Except LexError Token) :=
  resultsFrom 0 source.toList 0

def endToken (size : Nat) : Token :=
  ⟨.eof, Span.ofRange size size⟩

def tokenize (source : String) : Except LexError (List Token) := do
  let tokens ← (lexResults source).mapM id
  return tokens ++ [endToken source.utf8ByteSize]

/-! ## One token at a time -/

/-- A lexer in the middle of a text. `ahead` is a result that has been looked at
but not handed out. -/
structure Lexer where
  rest : List Char
  position : Nat
  ahead : Option (Except LexError Token)

namespace Lexer

def start (source : String) : Lexer :=
  ⟨source.toList, 0, none⟩

def scanFrom : Nat → List Char → Nat → Except LexError Token × List Char × Nat
  | _, [], position => (.ok (endToken position), [], position)
  | skip + 1, c :: rest, position => scanFrom skip rest (position + c.utf8Size)
  | 0, c :: rest, position =>
    let piece := bite c rest
    match piece.result with
    | none => scanFrom piece.extra rest (position + c.utf8Size)
    | some result =>
      (locate result piece.reach (c :: rest) position, rest.drop piece.extra,
        position + byteLength (c :: rest.take piece.extra))

def scan (lexer : Lexer) : Except LexError Token × Lexer :=
  let (result, rest, position) := scanFrom 0 lexer.rest lexer.position
  (result, ⟨rest, position, none⟩)

/-- The next token or mistake; at the end, the end again and again. -/
def next (lexer : Lexer) : Except LexError Token × Lexer :=
  match lexer.ahead with
  | some result => (result, { lexer with ahead := none })
  | none => lexer.scan

def isEnd : Except LexError Token → Bool
  | .ok ⟨.eof, _⟩ => true
  | _ => false

/-- Whether only white space and comments are left. Looks one result ahead. -/
def atEnd (lexer : Lexer) : Bool × Lexer :=
  match lexer.ahead with
  | some result => (isEnd result, lexer)
  | none =>
    let (result, lexer) := lexer.scan
    (isEnd result, { lexer with ahead := some result })

def next? (lexer : Lexer) : Option (Except LexError Token) × Lexer :=
  let (result, lexer) := lexer.next
  (if isEnd result then none else some result, lexer)

end Lexer

end StepScript
