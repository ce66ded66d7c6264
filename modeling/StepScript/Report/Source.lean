import StepScript.Span
import StepScript.Text.Blank
import StepScript.Text.Width

/-! Source text by lines and characters, as reports show it. -/

set_option autoImplicit false

namespace StepScript.Report

/-- One line of a text: the characters before it, its length with its ending, and
its characters without trailing white space. -/
structure Line where
  offset : Nat
  length : Nat
  shown : List Char
  deriving Repr, DecidableEq

def isLineEnd (c : Char) : Bool :=
  c == '\n' || c == '\r' || c == '\x0b' || c == '\x0c' || c == '\x85' || c == '\u2028' ||
    c == '\u2029'

def lineOf (offset : Nat) (reversed : List Char) : Line :=
  ⟨offset, reversed.length, (reversed.dropWhile Text.isBlank).reverse⟩

/-- The lines of a text of which `reversed` has been read since `offset`. A
carriage return and a line feed end a line together. -/
def linesFrom (offset : Nat) (reversed : List Char) : List Char → List Line
  | [] => if reversed.isEmpty then [] else [lineOf offset reversed]
  | '\r' :: '\n' :: rest =>
    let line := lineOf offset ('\n' :: '\r' :: reversed)
    line :: linesFrom (offset + line.length) [] rest
  | c :: rest =>
    if isLineEnd c then
      let line := lineOf offset (c :: reversed)
      line :: linesFrom (offset + line.length) [] rest
    else linesFrom offset (c :: reversed) rest

def lines (source : String) : List Line :=
  linesFrom 0 [] source.toList

/-- The index of the line that holds the character at `offset`; the end of the
text belongs to the last line. -/
def lineIndex (lines : List Line) (offset : Nat) : Nat :=
  (lines.filter (·.offset ≤ offset)).length - 1

def charsWithin : List Char → Nat → Nat
  | [], _ => 0
  | c :: rest, bytes => if bytes = 0 then 0 else charsWithin rest (bytes - c.utf8Size) + 1

structure CharRange where
  start : Nat
  stop : Nat
  deriving Repr, DecidableEq

def charRange (source : String) (span : Span) : CharRange :=
  ⟨charsWithin source.toList span.start, charsWithin source.toList span.stop⟩

def tabWidth : Nat := 4

def cellCount (c : Char) (column : Nat) : Nat :=
  if c = '\t' then tabWidth - column % tabWidth
  else if Text.isBlank c then 1
  else Text.width c

/-- The characters drawn for a character at a column: white space as blanks. -/
def drawn (c : Char) (column : Nat) : List Char :=
  if Text.isBlank c then List.replicate (cellCount c column) ' ' else [c]

def drawnFrom (column : Nat) : List Char → List Char
  | [] => []
  | c :: rest => drawn c column ++ drawnFrom (column + 1) rest

def Line.cells (line : Line) (column : Nat) : Nat :=
  match line.shown[column]? with
  | some c => cellCount c column
  | none => 1

end StepScript.Report
