import ShaderExpr.Scope
import ShaderExpr.Source.Problem

namespace ShaderExpr

/-- Reading position in a list of tokens, with the scope that declarations fill and the problems
    reported so far. Problems do not end the reading: the reader goes on with a placeholder. -/
structure Cursor where
  /-- The tokens not read yet. -/
  rest : List Token
  /-- Length of the source, where the end of input stands. -/
  sourceEnd : Nat
  /-- Span of the token read last. -/
  last : Span
  scope : Scope
  /-- In the order of their reports. -/
  diagnostics : List Diagnostic

/-- Reading of a part of a source. -/
abbrev Reader := StateM Cursor

namespace Cursor

def kind (c : Cursor) : Token.Kind :=
  match c.rest with
  | [] => .endOfInput
  | t :: _ => t.kind

/-- Kind of the token behind the current one. -/
def nextKind (c : Cursor) : Token.Kind :=
  match c.rest with
  | _ :: t :: _ => t.kind
  | _ => .endOfInput

def span (c : Cursor) : Span :=
  match c.rest with
  | [] => ⟨c.sourceEnd, c.sourceEnd⟩
  | t :: _ => t.span

/-- Goes on to the next token. The end of input is not passed. -/
def advance (c : Cursor) : Cursor :=
  match c.rest with
  | [] => c
  | t :: rest => { c with rest, last := t.span }

/-- Goes on behind the next control token `mark`, or to the end of input without one. -/
def skipPast (c : Cursor) (mark : Char) : Cursor :=
  let (last, rest) := go c.last c.rest
  { c with rest, last }
where
  go (last : Span) : List Token → Span × List Token
    | [] => (last, [])
    | t :: rest => if t.kind = .control mark then (t.span, rest) else go t.span rest

def report (c : Cursor) (problem : Problem) (span : Span) : Cursor :=
  { c with diagnostics := c.diagnostics ++ [⟨problem, span⟩] }

end Cursor

namespace Reader

def kind : Reader Token.Kind := return (← get).kind
def nextKind : Reader Token.Kind := return (← get).nextKind
def span : Reader Span := return (← get).span
def scope : Reader Scope := return (← get).scope

/-- Bounds the number of tokens that any reading from here on can take. -/
def remaining : Reader Nat := return (← get).rest.length

/-- Number of problems so far, to find out whether reading a part met any. -/
def problemCount : Reader Nat := return (← get).diagnostics.length

def advance : Reader Unit := modify (·.advance)
def skipPast (mark : Char) : Reader Unit := modify (·.skipPast mark)

def reportAt (span : Span) (problem : Problem) : Reader Unit := modify (·.report problem span)

/-- Reports a problem at the current token. -/
def report (problem : Problem) : Reader Unit := do reportAt (← span) problem

def isControl (c : Char) : Reader Bool := return (← kind) = .control c

/-- Reads a control token. When it is not there, reports that and skips past the next one. -/
def expectControl (c : Char) (problem : Problem) : Reader Unit := do
  if ← isControl c then advance
  else
    report problem
    skipPast c

end Reader

end ShaderExpr
