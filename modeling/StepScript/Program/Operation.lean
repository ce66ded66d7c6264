/-! The operations of expressions: their names, how tightly they bind, and which
of them compute on values. -/

set_option autoImplicit false

namespace StepScript

inductive BinaryOp where
  | add | subtract | multiply | divide | remainder
  | less | lessEqual | greater | greaterEqual
  | equal | notEqual | strictEqual | strictNotEqual
  deriving Repr, DecidableEq

inductive UnaryOp where
  | not | plus | negate | typeof | void
  deriving Repr, DecidableEq

/-- Updates of a slot: plain assignment, the compound ones, and the steps by
one. -/
inductive UpdateOp where
  | assign | add | subtract | multiply | divide | remainder | increment | decrement
  deriving Repr, DecidableEq

inductive Operation where
  | grouping | objectLiteral | arrayLiteral | functionLiteral
  | member | construct
  | call
  | postIncrement | postDecrement
  | preIncrement | preDecrement | logicalNot | bitNot | plus | negate | typeof | void | delete
  | power | multiply | divide | remainder
  | add | subtract
  | shiftLeft | shiftRight | shiftRightZero
  | less | lessEqual | greater | greaterEqual | memberOf | instanceOf
  | equal | notEqual | strictEqual | strictNotEqual
  | bitAnd | bitXor | bitOr | logicalAnd | logicalOr
  | conditional
  | assign | addAssign | subtractAssign | multiplyAssign | divideAssign | remainderAssign
  | shiftLeftAssign | shiftRightAssign | shiftRightZeroAssign
  | bitAndAssign | bitXorAssign | bitOrAssign
  | yield | spread | comma
  deriving Repr, DecidableEq

def BinaryOp.symbol : BinaryOp → String
  | add => "+"
  | subtract => "-"
  | multiply => "*"
  | divide => "/"
  | remainder => "%"
  | less => "<"
  | lessEqual => "<="
  | greater => ">"
  | greaterEqual => ">="
  | equal => "=="
  | notEqual => "!="
  | strictEqual => "==="
  | strictNotEqual => "!=="

def UnaryOp.symbol : UnaryOp → String
  | not => "!"
  | plus => "+"
  | negate => "-"
  | typeof => "typeof"
  | void => "void"

def UpdateOp.symbol : UpdateOp → String
  | assign => "="
  | add => "+="
  | subtract => "-="
  | multiply => "*="
  | divide => "/="
  | remainder => "%="
  | increment => "++"
  | decrement => "--"

def BinaryOp.all : List BinaryOp :=
  [add, subtract, multiply, divide, remainder, less, lessEqual, greater, greaterEqual,
    equal, notEqual, strictEqual, strictNotEqual]

def UnaryOp.all : List UnaryOp :=
  [not, plus, negate, typeof, void]

def UpdateOp.all : List UpdateOp :=
  [assign, add, subtract, multiply, divide, remainder, increment, decrement]

namespace Operation

def name : Operation → String
  | grouping => "Grouping"
  | objectLiteral => "JsonObject"
  | arrayLiteral => "ArrayObject"
  | functionLiteral => "Function"
  | member => "MemberAccess"
  | construct => "New"
  | call => "Call"
  | postIncrement => "PostfixIncrement"
  | postDecrement => "PostfixDecrement"
  | preIncrement => "PrefixIncrement"
  | preDecrement => "PrefixDecrement"
  | logicalNot => "LogicalNot"
  | bitNot => "BitwiseNot"
  | plus => "UnaryPlus"
  | negate => "UnaryNegation"
  | typeof => "Typeof"
  | void => "Void"
  | delete => "Delete"
  | power => "Exponentiation"
  | multiply => "Multiplication"
  | divide => "Division"
  | remainder => "Remainder"
  | add => "Addition"
  | subtract => "Subtraction"
  | shiftLeft => "BitwiseLeftShift"
  | shiftRight => "BitwiseRightShift"
  | shiftRightZero => "BitwiseUnsignedRightShift"
  | less => "LessThan"
  | lessEqual => "LessThanOrEqual"
  | greater => "GreaterThan"
  | greaterEqual => "GreaterThanOrEqual"
  | memberOf => "In"
  | instanceOf => "InstanceOf"
  | equal => "Equality"
  | notEqual => "Inequality"
  | strictEqual => "StrictEquality"
  | strictNotEqual => "StrictInequality"
  | bitAnd => "BitwiseAND"
  | bitXor => "BitwiseXOR"
  | bitOr => "BitwiseOR"
  | logicalAnd => "LogicalAND"
  | logicalOr => "LogicalOR"
  | conditional => "Conditional"
  | assign => "Assignment"
  | addAssign => "AdditionAssignment"
  | subtractAssign => "SubtractionAssignment"
  | multiplyAssign => "MultiplicationAssignment"
  | divideAssign => "DivisionAssignment"
  | remainderAssign => "RemainderAssignment"
  | shiftLeftAssign => "LeftShiftAssignment"
  | shiftRightAssign => "RightShiftAssignment"
  | shiftRightZeroAssign => "UnsignedRightShiftAssignment"
  | bitAndAssign => "BitwiseANDAssignment"
  | bitXorAssign => "BitwiseXORAssignment"
  | bitOrAssign => "BitwiseORAssignment"
  | yield => "Yield"
  | spread => "Spread"
  | comma => "Comma"

/-- Every operation, by falling binding strength. -/
def all : List Operation :=
  [grouping, objectLiteral, arrayLiteral, functionLiteral, member, construct, call,
    postIncrement, postDecrement, preIncrement, preDecrement, logicalNot, bitNot, plus, negate,
    typeof, void, delete, power, multiply, divide, remainder, add, subtract,
    shiftLeft, shiftRight, shiftRightZero, less, lessEqual, greater, greaterEqual, memberOf,
    instanceOf, equal, notEqual, strictEqual, strictNotEqual, bitAnd, bitXor, bitOr,
    logicalAnd, logicalOr, conditional, assign, addAssign, subtractAssign, multiplyAssign,
    divideAssign, remainderAssign, shiftLeftAssign, shiftRightAssign, shiftRightZeroAssign,
    bitAndAssign, bitXorAssign, bitOrAssign, yield, spread, comma]

def ofName? (name : String) : Option Operation :=
  all.find? (·.name == name)

def precedence : Operation → Nat
  | grouping | objectLiteral | arrayLiteral | functionLiteral => 19
  | member | construct => 18
  | call => 17
  | postIncrement | postDecrement => 16
  | preIncrement | preDecrement | logicalNot | bitNot | plus | negate
  | typeof | void | delete => 15
  | power | multiply | divide | remainder => 14
  | add | subtract => 13
  | shiftLeft | shiftRight | shiftRightZero => 12
  | less | lessEqual | greater | greaterEqual | memberOf | instanceOf => 11
  | equal | notEqual | strictEqual | strictNotEqual => 10
  | bitAnd => 9
  | bitXor => 8
  | bitOr => 7
  | logicalAnd => 6
  | logicalOr => 5
  | conditional => 4
  | assign | addAssign | subtractAssign | multiplyAssign | divideAssign | remainderAssign
  | shiftLeftAssign | shiftRightAssign | shiftRightZeroAssign
  | bitAndAssign | bitXorAssign | bitOrAssign => 3
  | yield => 2
  | spread => 1
  | comma => 0

def isRightAssociative (operation : Operation) : Bool :=
  operation.precedence == 3 || operation == power || operation == conditional

/-- The strength that the right operand of an operation needs at least. -/
def rightPrecedence (operation : Operation) : Nat :=
  if operation.isRightAssociative then operation.precedence else operation.precedence + 1

def isAssignment (operation : Operation) : Bool :=
  operation.precedence == 3 || operation == postIncrement || operation == postDecrement ||
    operation == preIncrement || operation == preDecrement

def binary? : Operation → Option BinaryOp
  | add => some .add
  | subtract => some .subtract
  | multiply => some .multiply
  | divide => some .divide
  | remainder => some .remainder
  | less => some .less
  | lessEqual => some .lessEqual
  | greater => some .greater
  | greaterEqual => some .greaterEqual
  | equal => some .equal
  | notEqual => some .notEqual
  | strictEqual => some .strictEqual
  | strictNotEqual => some .strictNotEqual
  | _ => none

def unary? : Operation → Option UnaryOp
  | logicalNot => some .not
  | plus => some .plus
  | negate => some .negate
  | typeof => some .typeof
  | void => some .void
  | _ => none

/-- The update made to the first operand's slot, if it is supported. -/
def update? : Operation → Option UpdateOp
  | assign => some .assign
  | addAssign => some .add
  | subtractAssign => some .subtract
  | multiplyAssign => some .multiply
  | divideAssign => some .divide
  | remainderAssign => some .remainder
  | preIncrement | postIncrement => some .increment
  | preDecrement | postDecrement => some .decrement
  | _ => none

end Operation

end StepScript
