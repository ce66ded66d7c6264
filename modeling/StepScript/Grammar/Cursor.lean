import StepScript.Program.Node
import StepScript.Token.Lexer

/-! The cursor of the parser: one token at hand and the results of the lexer still
to come. A mistake of the lexer counts only once the cursor moves onto it. -/

set_option autoImplicit false

namespace StepScript

inductive Wanted where
  | punctuator (p : Punctuator)
  | keyword (k : Keyword)
  | identifier
  | propertyName
  | expression
  | assignable
  deriving Repr, DecidableEq

def Wanted.description : Wanted → String
  | punctuator p => "`" ++ p.text ++ "`"
  | keyword k => "keyword `" ++ k.text ++ "`"
  | identifier => "an identifier"
  | propertyName => "a property name"
  | expression => "an expression"
  | assignable => "an assignable expression"

/-- Why a text is no program. `outOfFuel` says that the bound on the depth of the
derivation was too small. -/
inductive ParseError where
  | unexpected (wanted : Wanted) (found : String) (span : Span)
  | lexical (e : LexError)
  | outOfFuel
  deriving Repr, DecidableEq

def ParseError.message : ParseError → String
  | unexpected wanted found _ =>
    "Expected " ++ wanted.description ++ ", but encountered " ++ found ++ "."
  | lexical e => e.fault.message
  | outOfFuel => "nested too deeply"

def ParseError.span? : ParseError → Option Span
  | unexpected _ _ span => some span
  | lexical e => some e.span
  | outOfFuel => none

/-- A place in the results of the lexer, over a text of `size` bytes. -/
structure Cursor where
  current : Token
  rest : List (Except LexError Token)
  size : Nat

abbrev Parse := StateT Cursor (Except ParseError)

namespace Cursor

def advance (cursor : Cursor) : Except ParseError Cursor :=
  match cursor.rest with
  | [] => .ok { cursor with current := endToken cursor.size }
  | .ok token :: rest => .ok { cursor with current := token, rest := rest }
  | .error e :: _ => .error (.lexical e)

def start (results : List (Except LexError Token)) (size : Nat) : Except ParseError Cursor :=
  advance ⟨endToken size, results, size⟩

end Cursor

namespace Parse

def peek : Parse Lexeme :=
  return (← get).current.lexeme

def advance : Parse Unit := do
  set (← (← get).advance)

def fail {α : Type} (wanted : Wanted) : Parse α := do
  let token := (← get).current
  throw (.unexpected wanted token.lexeme.description token.span)

def at? (p : Punctuator) : Parse Bool := do
  match ← peek with
  | .punctuator q => return q == p
  | _ => return false

def atKeyword? (k : Keyword) : Parse Bool := do
  match ← peek with
  | .keyword q => return q == k
  | _ => return false

def eat (p : Punctuator) : Parse Bool := do
  if ← at? p then
    advance
    return true
  else return false

def eatKeyword (k : Keyword) : Parse Bool := do
  if ← atKeyword? k then
    advance
    return true
  else return false

def expect (p : Punctuator) : Parse Unit := do
  unless ← eat p do
    fail (.punctuator p)

def expectKeyword (k : Keyword) : Parse Unit := do
  unless ← eatKeyword k do
    fail (.keyword k)

def expectIdentifier : Parse String := do
  match ← peek with
  | .identifier name =>
    advance
    return name
  | _ => fail .identifier

def expectPropertyName : Parse String := do
  let name ← match ← peek with
    | .identifier name => pure name
    | .keyword k => pure k.text
    | .number x => pure (Number.text x)
    | .string text => pure text
    | _ => fail .propertyName
  advance
  return name

end Parse

end StepScript
