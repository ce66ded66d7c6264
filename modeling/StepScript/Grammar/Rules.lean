import StepScript.Grammar.Cursor
import StepScript.Grammar.Operators

/-! The grammar.

A goal is something the parser can be sent for. Each rule says how one goal is
reached by reading tokens and sending for other goals; `Goal.parse` ties the
rules together. Goals with a `done` list or a tree continue a construct that has
been read in part.
-/

set_option autoImplicit false

namespace StepScript

abbrev Branch := Rose Node

/-- What the parser can be sent for. Lists of finished parts are in reverse. -/
inductive Goal where
  /-- The statements up to the end of the text. -/
  | unit (done : List Branch)
  /-- One statement. -/
  | statement
  /-- A block in braces. -/
  | block
  /-- The rest of a block behind its opening brace. -/
  | blockRest (done : List Branch)
  /-- An expression whose outermost operators have at least the strength
  `least`. -/
  | expression (least : Nat)
  /-- The operators that follow a left operand. -/
  | operators (least : Nat) (left : Branch)
  /-- An operand with the operators in front of it. -/
  | operand
  /-- The accesses, calls and steps that follow a primary expression. -/
  | suffixes (base : Branch)
  /-- A literal, a name or a bracketed expression. -/
  | primary
  /-- The member accesses that follow the callee of `new`. -/
  | callee (base : Branch)
  /-- The arguments of `op` behind the opening parenthesis or a comma. -/
  | arguments (op : Operation) (done : List Branch)
  /-- The entries of an object literal behind the brace or a comma. -/
  | entries (done : List Branch)
  /-- The elements of an array literal behind the bracket or a comma. -/
  | elements (done : List Branch)

/-- A way to reach goals. -/
abbrev Reach := Goal → Parse Branch

namespace Branch

def op (operation : Operation) (operands : List Branch) : Branch :=
  .node (.operation operation) operands

def stmt (statement : Statement) (parts : List Branch) : Branch :=
  .node (.statement statement) parts

def lit (value : Value) : Branch :=
  .leaf (.literal value)

end Branch

open Branch Parse

def checkAssignable (target : Branch) : Parse Unit := do
  if target.value.isAssignable then return
  else throw (.unexpected .assignable target.value.kindName (← get).current.span)

def checkTarget (operation : Operation) (target : Branch) : Parse Unit :=
  if operation.isAssignment then checkAssignable target else return

section Expressions

variable (reach : Reach)

def anyExpression : Parse Branch :=
  reach (.expression 0)

def expressionRule (least : Nat) : Parse Branch := do
  let left ← reach .operand
  reach (.operators least left)

/-- The middle operand of the conditional operator and the colon behind it; other
operators have none. -/
def middleOperands (operation : Operation) : Parse (List Branch) := do
  if operation = .conditional then
    let middle ← anyExpression reach
    expect .colon
    return [middle]
  else
    return []

def operatorsRule (least : Nat) (left : Branch) : Parse Branch := do
  match (← peek).between? with
  | none => return left
  | some operation =>
    if operation.precedence < least then
      return left
    else
      checkTarget operation left
      advance
      let middle ← middleOperands reach operation
      let right ← reach (.expression operation.rightPrecedence)
      reach (.operators least (op operation (left :: middle ++ [right])))

/-- Operators in front of an operand apply from right to left. -/
def operandRule : Parse Branch := do
  match (← peek).before? with
  | some operation =>
    advance
    let inner ← reach .operand
    checkTarget operation inner
    return op operation [inner]
  | none =>
    let base ← reach .primary
    reach (.suffixes base)

def memberAccess (base : Branch) : Parse Branch := do
  if ← eat .dot then
    let name ← expectPropertyName
    return op .member [base, lit (.string name)]
  else
    expect .openBracket
    let key ← anyExpression reach
    expect .closeBracket
    return op .member [base, key]

def argumentList (operation : Operation) (done : List Branch) : Parse Branch := do
  if ← eat .closeParen then
    return op operation done.reverse
  else
    reach (.arguments operation done)

/-- Member accesses and calls, and at most one step up or down at the end. -/
def suffixesRule (base : Branch) : Parse Branch := do
  match ← peek with
  | .punctuator .dot | .punctuator .openBracket =>
    let access ← memberAccess reach base
    reach (.suffixes access)
  | .punctuator .openParen =>
    advance
    let call ← argumentList reach .call [base]
    reach (.suffixes call)
  | .punctuator .plusPlus =>
    checkAssignable base
    advance
    return op .postIncrement [base]
  | .punctuator .minusMinus =>
    checkAssignable base
    advance
    return op .postDecrement [base]
  | _ => return base

def argumentsRule (operation : Operation) (done : List Branch) : Parse Branch := do
  let argument ← anyExpression reach
  if ← eat .comma then
    reach (.arguments operation (argument :: done))
  else
    expect .closeParen
    return op operation (argument :: done).reverse

def groupingRule : Parse Branch := do
  expect .openParen
  let inner ← anyExpression reach
  expect .closeParen
  return op .grouping [inner]

/-- The key and the value of one entry: a computed key is grouped and its value
is not, a named key is a literal and its value is grouped, and a name alone
stands for the variable of that name. -/
def objectEntry : Parse (Branch × Branch) := do
  if ← eat .openBracket then
    let key ← anyExpression reach
    expect .closeBracket
    expect .colon
    let value ← anyExpression reach
    return (op .grouping [key], value)
  else
    let shorthand := match ← peek with
      | .identifier _ => true
      | _ => false
    let name ← expectPropertyName
    if ← eat .colon then
      let value ← anyExpression reach
      return (lit (.string name), op .grouping [value])
    else if shorthand then
      return (lit (.string name), .leaf (.use name))
    else fail (.punctuator .colon)

def entriesRule (done : List Branch) : Parse Branch := do
  let (key, value) ← objectEntry reach
  if ← eat .comma then
    reach (.entries (value :: key :: done))
  else
    expect .closeBrace
    return op .objectLiteral (value :: key :: done).reverse

def objectRule : Parse Branch := do
  expect .openBrace
  if ← eat .closeBrace then
    return op .objectLiteral []
  else
    reach (.entries [])

def arrayElement : Parse Branch := do
  if (← at? .comma) || (← at? .closeBracket) then return lit .undefined
  else anyExpression reach

def elementsRule (done : List Branch) : Parse Branch := do
  let element ← arrayElement reach
  if ← eat .comma then
    reach (.elements (element :: done))
  else
    expect .closeBracket
    return op .arrayLiteral (element :: done).reverse

def arrayRule : Parse Branch := do
  expect .openBracket
  if ← eat .closeBracket then
    return op .arrayLiteral []
  else
    reach (.elements [])

/-- Parameter names behind the opening parenthesis or a comma; each takes two
tokens, so the results left bound their number. -/
def parameters : Nat → List Branch → Parse (List Branch)
  | 0, _ => throw .outOfFuel
  | limit + 1, done => do
    let name ← expectIdentifier
    if ← eat .comma then
      parameters limit (lit (.string name) :: done)
    else
      expect .closeParen
      return (lit (.string name) :: done).reverse

def parameterList : Parse (List Branch) := do
  expect .openParen
  if ← eat .closeParen then return []
  else parameters ((← get).rest.length + 1) []

def functionName : Parse Value := do
  match ← peek with
  | .identifier _ => return .string (← expectIdentifier)
  | _ => return .undefined

def functionRule : Parse Branch := do
  expectKeyword .function
  let name ← functionName
  let params ← parameterList
  let body ← reach .block
  return op .functionLiteral (lit name :: params ++ [body])

def constructRule : Parse Branch := do
  expectKeyword .new
  let base ← reach .primary
  let callee ← reach (.callee base)
  if ← eat .openParen then
    argumentList reach .construct [callee]
  else
    return op .construct [callee]

def calleeRule (base : Branch) : Parse Branch := do
  if (← at? .dot) || (← at? .openBracket) then
    let access ← memberAccess reach base
    reach (.callee access)
  else
    return base

/-- A literal value, which moves the cursor on. -/
def literalRule (value : Value) : Parse Branch := do
  advance
  return lit value

def primaryRule : Parse Branch := do
  match ← peek with
  | .number x => literalRule (.number x)
  | .string text => literalRule (.string text)
  | .keyword .true => literalRule (.boolean true)
  | .keyword .false => literalRule (.boolean false)
  | .keyword .null => literalRule .null
  | .keyword .undefined => literalRule .undefined
  | .identifier _ => return .leaf (.use (← expectIdentifier))
  | .punctuator .openParen => groupingRule reach
  | .punctuator .openBrace => objectRule reach
  | .punctuator .openBracket => arrayRule reach
  | .keyword .function => functionRule reach
  | .keyword .new => constructRule reach
  | _ => fail .expression

end Expressions

section Statements

variable (reach : Reach)

def blockRule : Parse Branch := do
  expect .openBrace
  reach (.blockRest [])

def blockRestRule (done : List Branch) : Parse Branch := do
  if ← at? .closeBrace then
    advance
    return stmt .block done.reverse
  else
    match ← peek with
    | .eof => fail (.punctuator .closeBrace)
    | _ =>
      let statement ← reach .statement
      reach (.blockRest (statement :: done))

def unitRule (done : List Branch) : Parse Branch := do
  match ← peek with
  | .eof => return stmt .unit done.reverse
  | _ =>
    let statement ← reach .statement
    reach (.unit (statement :: done))

def condition : Parse Branch := do
  expect .openParen
  let test ← anyExpression reach
  expect .closeParen
  return test

def ifRule : Parse Branch := do
  advance
  let test ← condition reach
  let consequent ← reach .statement
  if ← eatKeyword .else then
    let alternative ← reach .statement
    return stmt .ifElse [test, consequent, alternative]
  else
    return stmt .ifElse [test, consequent]

def whileRule : Parse Branch := do
  advance
  let test ← condition reach
  let body ← reach .statement
  return stmt .whileLoop [test, body]

def doRule : Parse Branch := do
  advance
  let body ← reach .statement
  expectKeyword .while
  let test ← condition reach
  expect .semicolon
  return stmt .doLoop [body, test]

def declarationRule : Parse Branch := do
  expectKeyword .var
  let name ← expectIdentifier
  if ← eat .assign then
    let first ← anyExpression reach
    return .node (.declare name) [first]
  else
    return .leaf (.declare name)

def clause : Parse Branch := do
  if ← atKeyword? .var then declarationRule reach
  else anyExpression reach

def firstClause : Parse Branch := do
  if ← at? .semicolon then return lit .undefined
  else clause reach

def optionalClause (stop : Punctuator) : Parse Branch := do
  if ← at? stop then return lit .undefined
  else anyExpression reach

def forRule : Parse Branch := do
  advance
  expect .openParen
  let start ← firstClause reach
  expect .semicolon
  let test ← optionalClause reach .semicolon
  expect .semicolon
  let step ← optionalClause reach .closeParen
  expect .closeParen
  let body ← reach .statement
  return stmt .forLoop [start, test, step, body]

def returnRule : Parse Branch := do
  advance
  if ← at? .semicolon then
    expect .semicolon
    return stmt .ret []
  else
    let value ← anyExpression reach
    expect .semicolon
    return stmt .ret [value]

def throwRule : Parse Branch := do
  advance
  let value ← anyExpression reach
  expect .semicolon
  return stmt .throw [value]

def jumpRule (statement : Statement) : Parse Branch := do
  advance
  expect .semicolon
  return stmt statement []

/-- A declaration or an expression. A function literal without a semicolon behind
it declares the function. -/
def expressionStatementRule : Parse Branch := do
  let inner ← clause reach
  if inner.value.isOperation .functionLiteral && !(← at? .semicolon) then
    return stmt .functionDeclaration [inner]
  else
    expect .semicolon
    return stmt .expression [inner]

def statementRule : Parse Branch := do
  match ← peek with
  | .punctuator .openBrace => blockRule reach
  | .keyword .if => ifRule reach
  | .keyword .while => whileRule reach
  | .keyword .do => doRule reach
  | .keyword .for => forRule reach
  | .keyword .return => returnRule reach
  | .keyword .throw => throwRule reach
  | .keyword .break => jumpRule .breakOut
  | .keyword .continue => jumpRule .continueOn
  | _ => expressionStatementRule reach

end Statements

def Goal.rule (reach : Reach) : Goal → Parse Branch
  | unit done => unitRule reach done
  | statement => statementRule reach
  | block => blockRule reach
  | blockRest done => blockRestRule reach done
  | expression least => expressionRule reach least
  | operators least left => operatorsRule reach least left
  | operand => operandRule reach
  | suffixes base => suffixesRule reach base
  | primary => primaryRule reach
  | callee base => calleeRule reach base
  | arguments operation done => argumentsRule reach operation done
  | entries done => entriesRule reach done
  | elements done => elementsRule reach done

/-- Reaches a goal through at most `fuel` nested goals. -/
def Goal.parse : Nat → Goal → Parse Branch
  | 0, _ => throw .outOfFuel
  | fuel + 1, goal => goal.rule (Goal.parse fuel)

/-- Between two tokens at most this many goals open. -/
def goalsPerToken : Nat := 8

def parseResults (results : List (Except LexError Token)) (size : Nat) :
    Except ParseError Branch := do
  let cursor ← Cursor.start results size
  let fuel := goalsPerToken * (results.length + 2)
  let (tree, _) ← (Goal.parse fuel (.unit [])).run cursor
  return tree

def parseTree (source : String) : Except ParseError Branch :=
  parseResults (lexResults source) source.utf8ByteSize

def parse (source : String) : Except ParseError Code :=
  (parseTree source).map Outline.ofRose

end StepScript
