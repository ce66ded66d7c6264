import StepScript.Program.Operation
import StepScript.Token.Basic

/-! Which operation a token stands for, between two operands and in front of
one. -/

set_option autoImplicit false

namespace StepScript

/-- The operation of a token between two operands, `?` included. -/
def Lexeme.between? : Lexeme → Option Operation
  | .keyword .in => some .memberOf
  | .keyword .instanceof => some .instanceOf
  | .punctuator p => match p with
    | .starStar => some .power
    | .star => some .multiply
    | .slash => some .divide
    | .percent => some .remainder
    | .plus => some .add
    | .minus => some .subtract
    | .shiftLeft => some .shiftLeft
    | .shiftRight => some .shiftRight
    | .shiftRightZero => some .shiftRightZero
    | .less => some .less
    | .lessEqual => some .lessEqual
    | .greater => some .greater
    | .greaterEqual => some .greaterEqual
    | .equal => some .equal
    | .notEqual => some .notEqual
    | .strictEqual => some .strictEqual
    | .strictNotEqual => some .strictNotEqual
    | .amp => some .bitAnd
    | .caret => some .bitXor
    | .pipe => some .bitOr
    | .ampAmp => some .logicalAnd
    | .pipePipe => some .logicalOr
    | .question => some .conditional
    | .assign => some .assign
    | .plusAssign => some .addAssign
    | .minusAssign => some .subtractAssign
    | .starAssign => some .multiplyAssign
    | .slashAssign => some .divideAssign
    | .percentAssign => some .remainderAssign
    | .shiftLeftAssign => some .shiftLeftAssign
    | .shiftRightAssign => some .shiftRightAssign
    | .shiftRightZeroAssign => some .shiftRightZeroAssign
    | .ampAssign => some .bitAndAssign
    | .caretAssign => some .bitXorAssign
    | .pipeAssign => some .bitOrAssign
    | _ => none
  | _ => none

def Lexeme.before? : Lexeme → Option Operation
  | .punctuator .plusPlus => some .preIncrement
  | .punctuator .minusMinus => some .preDecrement
  | .punctuator .bang => some .logicalNot
  | .punctuator .tilde => some .bitNot
  | .punctuator .plus => some .plus
  | .punctuator .minus => some .negate
  | .punctuator .spread => some .spread
  | .keyword .typeof => some .typeof
  | .keyword .void => some .void
  | .keyword .delete => some .delete
  | .keyword .yield => some .yield
  | _ => none

end StepScript
