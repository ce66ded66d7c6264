import StepScript.Report.Source
import StepScript.Session

/-! Reports of errors.

An error with a place is drawn: the line it is in, with a pointer to the place
and the message at its end. An error that covers several lines has its first and
last line drawn, held together by a bar. Other errors are one line.
-/

set_option autoImplicit false

namespace StepScript.Report

def blanks (count : Nat) : String :=
  String.ofList (List.replicate count ' ')

/-- A character that is repeated over the cells of a column: the first cell and
the others. -/
structure Cell where
  first : Char
  others : Char

def Cell.draw (cell : Cell) : Nat → List Char
  | 0 => []
  | count + 1 => cell.first :: List.replicate count cell.others

def drawCells (line : Line) (width : Nat) (cell : Nat → Cell) : String :=
  String.ofList ((List.range width).flatMap fun column => (cell column).draw (line.cells column))

/-- Two columns are drawn behind a marked place. -/
def margin : Nat := 2

def markRow (line : Line) (range : CharRange) (stem : Nat) : String :=
  drawCells line (range.stop + margin) fun column =>
    let inside := range.start ≤ column && column < range.stop
    if column = stem then if inside then ⟨'┬', '─'⟩ else ⟨'│', ' '⟩
    else if inside then ⟨'─', '─'⟩
    else ⟨' ', ' '⟩

def stemRow (line : Line) (range : CharRange) (stem : Nat) : String :=
  drawCells line (range.stop + margin) fun column =>
    if column = stem then ⟨'╰', '─'⟩
    else if stem < column then ⟨'─', '─'⟩
    else ⟨' ', ' '⟩

def gutter (digits : Nat) (bar : String) : String :=
  blanks (digits + 2) ++ bar ++ " "

def numberGutter (digits number : Nat) : String :=
  let text := toString number
  blanks (digits + 1 - text.length) ++ text ++ " │ "

def lineText (line : Line) : String :=
  String.ofList (drawnFrom 0 line.shown)

def inlineRows (digits number : Nat) (line : Line) (range : CharRange) (message : String) :
    List String :=
  let columns : CharRange := ⟨range.start - line.offset, range.stop - line.offset⟩
  let stem := (columns.start + columns.stop) / 2
  [numberGutter digits number ++ lineText line,
    gutter digits "│" ++ markRow line columns stem,
    gutter digits "│" ++ stemRow line columns stem ++ " " ++ message]

def blockRows (digits number : Nat) (first : Line) (lastNumber : Nat) (last : Line)
    (message : String) : List String :=
  let width := last.length + margin
  [numberGutter digits number ++ "╭─▶ " ++ lineText first] ++
    (if number + 1 < lastNumber then [gutter digits "┆" ++ "┆   "] else []) ++
    [numberGutter digits lastNumber ++ "├─▶ " ++ lineText last,
      gutter digits "│" ++ "│   " ++ drawCells last width (fun _ => ⟨' ', ' '⟩),
      gutter digits "│" ++ "╰───" ++ drawCells last width (fun _ => ⟨'─', '─'⟩) ++ " " ++
        message]

def noLine : Line :=
  ⟨0, 0, []⟩

def draw (name source : String) (span : Span) (message : String) : String :=
  let range := charRange source span
  let all := lines source
  let firstIndex := lineIndex all range.start
  let lastIndex := lineIndex all (max (range.stop - 1) range.start)
  let first := all[firstIndex]?.getD noLine
  let last := all[lastIndex]?.getD noLine
  let digits := (toString (lastIndex + 1)).length
  let place := name ++ ":" ++ toString (firstIndex + 1) ++ ":" ++
    toString (range.start - first.offset + 1)
  let rows :=
    if firstIndex = lastIndex then inlineRows digits (firstIndex + 1) first range message
    else blockRows digits (firstIndex + 1) first (lastIndex + 1) last message
  "Error: " ++ message ++ "\n" ++
    blanks (digits + 2) ++ "╭─[" ++ place ++ "]\n" ++
    blanks (digits + 2) ++ "│\n" ++
    String.join (rows.map (· ++ "\n")) ++
    String.ofList (List.replicate (digits + 2) '─') ++ "╯\n"

def render (error : RunError) (name source : String) : String :=
  match error with
  | .parse e =>
    match e.span? with
    | some span => draw name source span e.message
    | none => "Error: " ++ e.message ++ "\n"
  | .eval (.unimplemented what) => "Error: " ++ what.name ++ " is not implemented yet.\n"
  | .eval (.breach b) => "internal error: " ++ b.detail ++ "\n"
  | .eval e => e.message ++ "\n"
  | .unreadable _ _ => "Error: " ++ error.message ++ "\n"

end StepScript.Report
