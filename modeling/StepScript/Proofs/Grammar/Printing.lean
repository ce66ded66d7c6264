import StepScript.Grammar.Rules

/-! Program trees as tokens.

A tree is printed in order, with parentheses only where a grouping stands. What
comes out are pieces. Most of them are single tokens; the others are the places
where one tree has several spellings. `Piece.Spelled` lists these, and nothing
else is left open.
-/

set_option autoImplicit false

namespace StepScript

def Lexeme.propertyName? : Lexeme → Option String
  | identifier name => some name
  | keyword k => some k.text
  | number x => some (Number.text x)
  | string text => some text
  | punctuator _ | eof => none

/-- A printed piece of a program. -/
inductive Piece where
  | token (lexeme : Lexeme)
  /-- The name of a property in an object literal. -/
  | key (name : String)
  /-- Access to a property that is given by its name. -/
  | access (name : String)
  /-- An `undefined` that may be left out. -/
  | gap
  /-- An empty argument list that may be left out. -/
  | noArguments

namespace Piece

def sign (p : Punctuator) : Piece := token (.punctuator p)

def word (k : Keyword) : Piece := token (.keyword k)

def name (text : String) : Piece := token (.identifier text)

inductive Spelled : Piece → List Lexeme → Prop where
  | token (lexeme : Lexeme) : Spelled (token lexeme) [lexeme]
  | key {lexeme : Lexeme} {name : String} (names : lexeme.propertyName? = some name) :
    Spelled (key name) [lexeme]
  | dotted {lexeme : Lexeme} {name : String} (names : lexeme.propertyName? = some name) :
    Spelled (access name) [.punctuator .dot, lexeme]
  | bracketed (name : String) :
    Spelled (access name) [.punctuator .openBracket, .string name, .punctuator .closeBracket]
  | written : Spelled gap [.keyword .undefined]
  | omitted : Spelled gap []
  | parentheses : Spelled noArguments [.punctuator .openParen, .punctuator .closeParen]
  | bare : Spelled noArguments []

def plain : Piece → List Lexeme
  | token lexeme => [lexeme]
  | key name => [.string name]
  | access name => [.punctuator .openBracket, .string name, .punctuator .closeBracket]
  | gap => [.keyword .undefined]
  | noArguments => [.punctuator .openParen, .punctuator .closeParen]

end Piece

inductive Spells : List Piece → List Lexeme → Prop where
  | nil : Spells [] []
  | cons {piece : Piece} {pieces : List Piece} {front rest : List Lexeme}
    (spelled : piece.Spelled front) (more : Spells pieces rest) :
    Spells (piece :: pieces) (front ++ rest)

/-! ## Signs of operators -/

namespace Operation

def isBetween (o : Operation) : Bool :=
  3 ≤ o.precedence && o.precedence ≤ 14

def isBefore (o : Operation) : Bool :=
  o.precedence == 15 || o == yield || o == spread

def sign? : Operation → Option Lexeme
  | postIncrement | preIncrement => some (.punctuator .plusPlus)
  | postDecrement | preDecrement => some (.punctuator .minusMinus)
  | logicalNot => some (.punctuator .bang)
  | bitNot => some (.punctuator .tilde)
  | plus | add => some (.punctuator .plus)
  | negate | subtract => some (.punctuator .minus)
  | typeof => some (.keyword .typeof)
  | void => some (.keyword .void)
  | delete => some (.keyword .delete)
  | yield => some (.keyword .yield)
  | spread => some (.punctuator .spread)
  | power => some (.punctuator .starStar)
  | multiply => some (.punctuator .star)
  | divide => some (.punctuator .slash)
  | remainder => some (.punctuator .percent)
  | shiftLeft => some (.punctuator .shiftLeft)
  | shiftRight => some (.punctuator .shiftRight)
  | shiftRightZero => some (.punctuator .shiftRightZero)
  | less => some (.punctuator .less)
  | lessEqual => some (.punctuator .lessEqual)
  | greater => some (.punctuator .greater)
  | greaterEqual => some (.punctuator .greaterEqual)
  | memberOf => some (.keyword .in)
  | instanceOf => some (.keyword .instanceof)
  | equal => some (.punctuator .equal)
  | notEqual => some (.punctuator .notEqual)
  | strictEqual => some (.punctuator .strictEqual)
  | strictNotEqual => some (.punctuator .strictNotEqual)
  | bitAnd => some (.punctuator .amp)
  | bitXor => some (.punctuator .caret)
  | bitOr => some (.punctuator .pipe)
  | logicalAnd => some (.punctuator .ampAmp)
  | logicalOr => some (.punctuator .pipePipe)
  | conditional => some (.punctuator .question)
  | assign => some (.punctuator .assign)
  | addAssign => some (.punctuator .plusAssign)
  | subtractAssign => some (.punctuator .minusAssign)
  | multiplyAssign => some (.punctuator .starAssign)
  | divideAssign => some (.punctuator .slashAssign)
  | remainderAssign => some (.punctuator .percentAssign)
  | shiftLeftAssign => some (.punctuator .shiftLeftAssign)
  | shiftRightAssign => some (.punctuator .shiftRightAssign)
  | shiftRightZeroAssign => some (.punctuator .shiftRightZeroAssign)
  | bitAndAssign => some (.punctuator .ampAssign)
  | bitXorAssign => some (.punctuator .caretAssign)
  | bitOrAssign => some (.punctuator .pipeAssign)
  | grouping | objectLiteral | arrayLiteral | functionLiteral | member | construct | call
  | comma => none

def signPieces (o : Operation) : List Piece :=
  o.sign?.toList.map .token

end Operation

/-! ## Printing -/

/-- A printed subtree. A grouping can be printed without its parentheses, so the
pieces of the children are kept apart from those of the whole. -/
structure Part where
  node : Node
  whole : List Piece
  inside : List Piece

def separated : List (List Piece) → List Piece
  | [] => []
  | [last] => last
  | first :: rest => first ++ .sign .comma :: separated rest

def Value.pieces : Value → List Piece
  | undefined => [.word .undefined]
  | null => [.word .null]
  | boolean true => [.word .true]
  | boolean false => [.word .false]
  | number x => [.token (.number x)]
  | string text => [.token (.string text)]
  | function _ | object _ => []

namespace Part

/-- A part where an `undefined` can be left out. -/
def optional (part : Part) : List Piece :=
  match part.node with
  | .literal .undefined => [.gap]
  | _ => part.whole

def title (part : Part) : List Piece :=
  match part.node with
  | .literal (.string text) => [.name text]
  | _ => []

/-- Elements of an array literal. Holes stand next to a comma, so an only element
is none. -/
def elements : List Part → List Piece
  | [only] => only.whole
  | parts => separated (parts.map optional)

def entry (key value : Part) : List Piece :=
  match key.node, value.node with
  | .literal (.string name), .operation .grouping => .key name :: .sign .colon :: value.inside
  | .literal (.string _), .use name => [.name name]
  | _, _ => .sign .openBracket :: key.inside ++ .sign .closeBracket :: .sign .colon :: value.whole

def entries : List Part → List (List Piece)
  | key :: value :: rest => entry key value :: entries rest
  | _ => []

def access (key : Part) : List Piece :=
  match key.node with
  | .literal (.string name) => [.access name]
  | _ => .sign .openBracket :: key.whole ++ [.sign .closeBracket]

def arguments (args : List Part) : List Piece :=
  .sign .openParen :: separated (args.map whole) ++ [.sign .closeParen]

end Part

open StepScript.Part

def Operation.pieces : Operation → List Part → List Piece
  | .grouping, [inner] => .sign .openParen :: inner.whole ++ [.sign .closeParen]
  | .objectLiteral, parts =>
    .sign .openBrace :: separated (entries parts) ++ [.sign .closeBrace]
  | .arrayLiteral, parts => .sign .openBracket :: elements parts ++ [.sign .closeBracket]
  | .functionLiteral, title :: rest =>
    .word .function :: title.title ++ .sign .openParen ::
      separated (rest.dropLast.map Part.title) ++ .sign .closeParen ::
      (rest.getLast?.map whole).getD []
  | .member, [base, key] => base.whole ++ access key
  | .construct, [callee] => .word .new :: callee.whole ++ [.noArguments]
  | .construct, callee :: args => .word .new :: callee.whole ++ arguments args
  | .call, callee :: args => callee.whole ++ arguments args
  | .conditional, [test, first, second] =>
    test.whole ++ .sign .question :: first.whole ++ .sign .colon :: second.whole
  | .postIncrement, [target] => target.whole ++ [.sign .plusPlus]
  | .postDecrement, [target] => target.whole ++ [.sign .minusMinus]
  | o, [operand] => o.signPieces ++ operand.whole
  | o, [left, right] => left.whole ++ o.signPieces ++ right.whole
  | _, _ => []

def Statement.pieces : Statement → List Part → List Piece
  | .unit, parts => parts.flatMap whole
  | .block, parts => .sign .openBrace :: parts.flatMap whole ++ [.sign .closeBrace]
  | .expression, [inner] => inner.whole ++ [.sign .semicolon]
  | .ifElse, [test, branch] =>
    .word .if :: .sign .openParen :: test.whole ++ .sign .closeParen :: branch.whole
  | .ifElse, [test, branch, other] =>
    .word .if :: .sign .openParen :: test.whole ++ .sign .closeParen :: branch.whole ++
      .word .else :: other.whole
  | .whileLoop, [test, body] =>
    .word .while :: .sign .openParen :: test.whole ++ .sign .closeParen :: body.whole
  | .doLoop, [body, test] =>
    .word .do :: body.whole ++ .word .while :: .sign .openParen :: test.whole ++
      [.sign .closeParen, .sign .semicolon]
  | .forLoop, [start, test, step, body] =>
    .word .for :: .sign .openParen :: start.optional ++ .sign .semicolon :: test.optional ++
      .sign .semicolon :: step.optional ++ .sign .closeParen :: body.whole
  | .ret, [] => [.word .return, .sign .semicolon]
  | .ret, [value] => .word .return :: value.whole ++ [.sign .semicolon]
  | .throw, [value] => .word .throw :: value.whole ++ [.sign .semicolon]
  | .breakOut, [] => [.word .break, .sign .semicolon]
  | .continueOn, [] => [.word .continue, .sign .semicolon]
  | .functionDeclaration, [literal] => literal.whole
  | _, _ => []

def Node.pieces : Node → List Part → List Piece
  | declare text, [] => [.word .var, .name text]
  | declare text, first :: _ => .word .var :: .name text :: .sign .assign :: first.whole
  | use text, _ => [.name text]
  | literal value, _ => value.pieces
  | operation o, parts => o.pieces parts
  | statement s, parts => s.pieces parts

namespace Branch

mutual

def part : Branch → Part
  | .node value children =>
    ⟨value, value.pieces (parts children), (parts children).flatMap whole⟩

def parts : List Branch → List Part
  | [] => []
  | tree :: rest => part tree :: parts rest

end

def pieces (tree : Branch) : List Piece :=
  (part tree).whole

def print (tree : Branch) : List Lexeme :=
  tree.pieces.flatMap Piece.plain

theorem parts_eq_map (trees : List Branch) : parts trees = trees.map part := by
  induction trees with
  | nil => rfl
  | cons tree rest ih => rw [parts, ih, List.map_cons]

end Branch

end StepScript
