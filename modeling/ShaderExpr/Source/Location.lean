import ShaderExpr.Character.Class

namespace ShaderExpr

/-- Characters that end a line. A carriage return and a line feed behind it end it together. -/
def isLineEnd (c : Char) : Bool :=
  ['\n', '\r', '\x0b', '\x0c', '\u0085', '\u2028', '\u2029'].contains c

/-- Line and column, both counted from zero. -/
structure Position where
  line : Nat
  column : Nat
  deriving DecidableEq, Repr

/-- A line with its end. -/
structure Line where
  index : Nat
  /-- Offset of its first character. -/
  start : Nat
  text : List Char
  deriving DecidableEq, Repr

/-- The lines of a text, with their ends. A line end at the end of the text starts no line. -/
def splitLines : List Char → List (List Char)
  | [] => []
  | c :: rest =>
    if isLineEnd c && !(c = '\r' && rest.head? = some '\n') then [c] :: splitLines rest
    else match splitLines rest with
      | [] => [[c]]
      | line :: lines => (c :: line) :: lines

namespace Line

/-- The line of an offset among lines that start at `start`. The last line goes on without end. -/
def findFrom (index start offset : Nat) : List (List Char) → Option Line
  | [] => none
  | [text] => some ⟨index, start, text⟩
  | text :: rest =>
    if offset < start + text.length then some ⟨index, start, text⟩
    else findFrom (index + 1) (start + text.length) offset rest

/-- The line of an offset. Offsets beyond the end of the text are in no line. -/
def containing? (source : List Char) (offset : Nat) : Option Line :=
  if offset ≤ source.length then findFrom 0 0 offset (splitLines source) else none

/-- Number of a line as people count. -/
def number (l : Line) : String := toString (l.index + 1)

end Line

/-- Line and column of an offset, as the reports of the library ariadne count them: in characters,
    not in bytes. -/
def Position.of? (source : List Char) (offset : Nat) : Option Position :=
  (Line.containing? source offset).map fun l => ⟨l.index, offset - l.start⟩

end ShaderExpr
