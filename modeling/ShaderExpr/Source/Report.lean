import ShaderExpr.Character.Width
import ShaderExpr.Source.Location
import ShaderExpr.Source.Problem

namespace ShaderExpr

namespace Diagnostic

/-- Where a span starts and ends. The byte offsets of the span are taken for the character offsets
    that lines are looked up by. -/
def location? (d : Diagnostic) (source : List Char) : Option (Position × Position) := do
  let start ← Position.of? source d.span.start
  let stop ← Position.of? source d.span.stop
  return (start, stop)

end Diagnostic

namespace Report

def filled (count : Nat) (c : Char) : String := String.ofList (List.replicate count c)

/-- Columns that a character takes at column `column`. Tabs stop at every fourth. -/
def widthAt (column : Nat) (c : Char) : Nat :=
  if c = '\t' then (column / 4 + 1) * 4 - column else columnWidth c

/-- A line as it is shown, without white space at its end. -/
def shownLine (text : List Char) : String :=
  String.join <| text.zipIdx.map fun (c, column) =>
    if c = '\t' then filled (widthAt column c) ' '
    else if isWhiteSpace c then " "
    else c.toString

/-- A cell of a label row: a mark and what fills it up to its width. -/
def cell : Nat → Char → Char → String
  | 0, _, _ => ""
  | width + 1, mark, filler => mark.toString ++ filled width filler

/-- The underline of a span from column `start` up to `stop`, with the label's stem in column
    `stem`. -/
def underline (width : Nat → Nat) (start stop stem columns : Nat) : String :=
  String.join <| (List.range columns).map fun column =>
    let inside := start ≤ column && column < stop
    let mark := if column = stem then (if inside then '┬' else '│') else if inside then '─' else ' '
    cell (width column) mark (if inside then '─' else ' ')

/-- The arm from the stem of a label to its message. -/
def arm (width : Nat → Nat) (stem columns : Nat) : String :=
  String.join <| (List.range columns).map fun column =>
    if column < stem then cell (width column) ' ' ' '
    else cell (width column) (if column = stem then '╰' else '─') '─'

/-- The line of a span with a label under it. Where stem and arm of the label go is up to ariadne,
    as the frame is. -/
def labelled (line : Line) (span : Span) (message : String) : String :=
  let margin := filled (line.number.length + 2) ' '
  let shown := ((line.text.reverse.dropWhile isWhiteSpace).reverse)
  let width := fun column => (shown[column]?).elim 1 (widthAt column)
  let start := span.start - line.start
  let stop := span.stop - line.start
  let stem := max ((span.start + span.stop) / 2) span.start - line.start
  let columns := stop + 2
  " " ++ line.number ++ " │ " ++ shownLine shown ++ "\n" ++
    margin ++ "│ " ++ underline width start stop stem columns ++ "\n" ++
    margin ++ "│ " ++ arm width stem columns ++ " " ++ message ++ "\n"

/-- A span with the frame around it. A span that leaves its line gets no label. -/
def framed (line : Line) (span : Span) (message : String) : String :=
  let margin := filled (line.number.length + 2) ' '
  let column := toString (span.start - line.start + 1)
  let body := if line.start + line.text.length < span.stop then margin ++ "│ \n"
    else labelled line span message
  margin ++ "╭─[<unknown>:" ++ line.number ++ ":" ++ column ++ "]\n" ++
    margin ++ "│\n" ++ body ++ filled (line.number.length + 2) '─' ++ "╯\n"

end Report

namespace Diagnostic

/-- Report of a problem as the library ariadne draws it without colors: its code and message, the
    line it is on, and a label under the span. Where a source has no line for a span, only the
    message is given. -/
def report (d : Diagnostic) (source : List Char) : String :=
  let message := d.problem.message
  let heading := "[" ++ d.problem.code.text ++ "] Error: " ++ message ++ "\n"
  let endsInside := d.span.stop ≤ d.span.start ||
    (Line.containing? source (d.span.stop - 1)).isSome
  match Line.containing? source d.span.start with
  | some line => if endsInside then heading ++ Report.framed line d.span message else heading
  | none => heading

/-- Reports of all problems of a source, with an empty line behind each. -/
def reports (ds : List Diagnostic) (source : String) : String :=
  String.join (ds.map fun d => d.report source.toList ++ "\n")

end Diagnostic

end ShaderExpr
