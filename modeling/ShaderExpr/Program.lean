import ShaderExpr.Grammar.Declaration
import ShaderExpr.Module.Assembly
import ShaderExpr.Module.Lowering
import ShaderExpr.Token.Lexer

namespace ShaderExpr

/-- What was read of a source, whether it has problems or not. Without tokens there is no
    expression. -/
structure Reading where
  expression : Option Expr
  scope : Scope
  diagnostics : List Diagnostic

/-- Reads a source, adding its declarations to a scope. -/
def Reading.ofSource (source : String) (scope : Scope) : Except Fault Reading :=
  match lex source with
  | (none, errors) => .ok ⟨none, scope, errors⟩
  | (some tokens, errors) => do
    let cursor : Cursor := ⟨tokens.tokens, source.utf8ByteSize, ⟨0, 0⟩, scope, []⟩
    let (expression, cursor) ← Reader.source.run cursor
    return ⟨some expression, cursor.scope, errors ++ cursor.diagnostics⟩

/-- A source without problems: the scope that its declarations made, and its expression. -/
structure Program where
  scope : Scope
  expression : Expr

/-- Why a source is no program. -/
inductive ProgramError
  | problems (diagnostics : List Diagnostic)
  | fault (cause : Fault)

namespace Program

/-- Reads and checks a source on top of a scope. -/
def parseIn (source : String) (scope : Scope) : Except ProgramError Program :=
  match Reading.ofSource source scope with
  | .error cause => .error (.fault cause)
  | .ok reading =>
    match reading.expression, reading.diagnostics with
    | some expression, [] => .ok ⟨reading.scope, expression⟩
    | _, diagnostics => .error (.problems diagnostics)

/-- Reads and checks a source of its own. -/
def parse (source : String) : Except ProgramError Program := parseIn source .empty

/-- Builds the module of a program. Parameters come first, used or not. -/
def build [Limits] (p : Program) : Build Module := do
  for x in p.scope.declared do
    if x.isParameter then
      let _ ← Build.variableId x
  let _ ← Build.expr p.expression
  Build.finish

/-- Module whose body function evaluates the expression. -/
def compile [Limits] (p : Program) (options : Options) : Except Fault Module :=
  (p.build.run (.new options)).map (·.1)

end Program

end ShaderExpr
