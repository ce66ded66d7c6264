import StepScript.Number.Text
import StepScript.Span
import StepScript.Text.Quoted

/-! Tokens and the mistakes that stop text from being one. -/

set_option autoImplicit false

namespace StepScript

inductive Keyword where
  | var | new | function | return | if | else | for | while | do | break | continue | throw
  | typeof | void | delete | in | instanceof | yield | true | false | null | undefined
  deriving Repr, DecidableEq

namespace Keyword

def text : Keyword → String
  | var => "var"
  | new => "new"
  | function => "function"
  | .return => "return"
  | .if => "if"
  | .else => "else"
  | .for => "for"
  | .while => "while"
  | .do => "do"
  | .break => "break"
  | .continue => "continue"
  | throw => "throw"
  | typeof => "typeof"
  | void => "void"
  | delete => "delete"
  | .in => "in"
  | instanceof => "instanceof"
  | .yield => "yield"
  | true => "true"
  | false => "false"
  | null => "null"
  | undefined => "undefined"

def all : List Keyword :=
  [var, new, function, .return, .if, .else, .for, .while, .do, .break, .continue, throw,
    typeof, void, delete, .in, instanceof, .yield, true, false, null, undefined]

def ofText? (word : String) : Option Keyword :=
  all.find? (·.text == word)

end Keyword

inductive Punctuator where
  | openBrace | closeBrace | openParen | closeParen | openBracket | closeBracket
  | dot | spread | semicolon | comma
  | less | greater | lessEqual | greaterEqual | equal | notEqual | strictEqual | strictNotEqual
  | plus | minus | star | starStar | slash | percent | plusPlus | minusMinus
  | shiftLeft | shiftRight | shiftRightZero | amp | pipe | caret | bang | tilde | ampAmp | pipePipe
  | question | colon | assign | plusAssign | minusAssign | starAssign | slashAssign | percentAssign
  | shiftLeftAssign | shiftRightAssign | shiftRightZeroAssign | ampAssign | pipeAssign | caretAssign
  | arrow
  deriving Repr, DecidableEq

namespace Punctuator

def text : Punctuator → String
  | openBrace => "\x7b"
  | closeBrace => "\x7d"
  | openParen => "("
  | closeParen => ")"
  | openBracket => "["
  | closeBracket => "]"
  | dot => "."
  | spread => "..."
  | semicolon => ";"
  | comma => ","
  | less => "<"
  | greater => ">"
  | lessEqual => "<="
  | greaterEqual => ">="
  | equal => "=="
  | notEqual => "!="
  | strictEqual => "==="
  | strictNotEqual => "!=="
  | plus => "+"
  | minus => "-"
  | star => "*"
  | starStar => "**"
  | slash => "/"
  | percent => "%"
  | plusPlus => "++"
  | minusMinus => "--"
  | shiftLeft => "<<"
  | shiftRight => ">>"
  | shiftRightZero => ">>>"
  | amp => "&"
  | pipe => "|"
  | caret => "^"
  | bang => "!"
  | tilde => "~"
  | ampAmp => "&&"
  | pipePipe => "||"
  | question => "?"
  | colon => ":"
  | assign => "="
  | plusAssign => "+="
  | minusAssign => "-="
  | starAssign => "*="
  | slashAssign => "/="
  | percentAssign => "%="
  | shiftLeftAssign => "<<="
  | shiftRightAssign => ">>="
  | shiftRightZeroAssign => ">>>="
  | ampAssign => "&="
  | pipeAssign => "|="
  | caretAssign => "^="
  | arrow => "=>"

/-- Every punctuator, longer ones first, so that the first one a text begins with
is the longest. -/
def all : List Punctuator :=
  [shiftRightZeroAssign,
    spread, strictEqual, strictNotEqual, shiftRightZero, shiftLeftAssign, shiftRightAssign,
    lessEqual, greaterEqual, equal, notEqual, starStar, plusPlus, minusMinus, shiftLeft,
    shiftRight, ampAmp, pipePipe, plusAssign, minusAssign, starAssign, slashAssign,
    percentAssign, ampAssign, pipeAssign, caretAssign, arrow,
    openBrace, closeBrace, openParen, closeParen, openBracket, closeBracket, dot, semicolon,
    comma, less, greater, plus, minus, star, slash, percent, amp, pipe, caret, bang, tilde,
    question, colon, assign]

def longest? (chars : List Char) : Option Punctuator :=
  all.find? fun p => p.text.toList.isPrefixOf chars

end Punctuator

inductive Lexeme where
  | keyword (k : Keyword)
  | punctuator (p : Punctuator)
  | identifier (name : String)
  | number (x : Float)
  | string (text : String)
  | eof
  deriving Repr

def Lexeme.description : Lexeme → String
  | keyword k => "keyword `" ++ k.text ++ "`"
  | punctuator p => "`" ++ p.text ++ "`"
  | identifier name => "identifier `" ++ name ++ "`"
  | number x => "number `" ++ Number.text x ++ "`"
  | string text => "string " ++ Text.shown text
  | eof => "end of input"

structure Token where
  lexeme : Lexeme
  span : Span
  deriving Repr

inductive LexFault where
  | unexpectedCharacter (found : Char)
  | unterminatedString
  | unterminatedComment
  | unknownEscape (found : Char)
  | invalidNumber (text : String)
  deriving Repr, DecidableEq

structure LexError where
  fault : LexFault
  span : Span
  deriving Repr, DecidableEq

def LexFault.message : LexFault → String
  | unexpectedCharacter found => "unexpected character `" ++ found.toString ++ "`"
  | unterminatedString => "unterminated string literal"
  | unterminatedComment => "unterminated block comment"
  | unknownEscape found => "unknown escape sequence `\\" ++ found.toString ++ "`"
  | invalidNumber text => "invalid number literal `" ++ text ++ "`"

end StepScript
