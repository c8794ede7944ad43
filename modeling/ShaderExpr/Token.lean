import ShaderExpr.Operator
import ShaderExpr.Scalar
import ShaderExpr.Source.Span

namespace ShaderExpr

/-- Operators of more than one character. -/
inductive Symbol
  | shlAssign | shrAssign | mulAssign | divAssign | modAssign | addAssign | subAssign | andAssign
  | xorAssign | orAssign | shl | shr | le | ge | eq | ne | and | or | xor | increment | decrement
  deriving DecidableEq, Repr

namespace Symbol

/-- A symbol stands in this list before those that it starts with. -/
def all : List Symbol :=
  [.shlAssign, .shrAssign, .mulAssign, .divAssign, .modAssign, .addAssign, .subAssign, .andAssign,
    .xorAssign, .orAssign, .shl, .shr, .le, .ge, .eq, .ne, .and, .or, .xor, .increment, .decrement]

def text : Symbol → String
  | .shlAssign => "<<="
  | .shrAssign => ">>="
  | .mulAssign => "*="
  | .divAssign => "/="
  | .modAssign => "%="
  | .addAssign => "+="
  | .subAssign => "-="
  | .andAssign => "&="
  | .xorAssign => "^="
  | .orAssign => "|="
  | .shl => "<<"
  | .shr => ">>"
  | .le => "<="
  | .ge => ">="
  | .eq => "=="
  | .ne => "!="
  | .and => "&&"
  | .or => "||"
  | .xor => "^^"
  | .increment => "++"
  | .decrement => "--"

/-- Binary operator that a symbol is. -/
def operator? : Symbol → Option Operator
  | .shl => some .shl
  | .shr => some .shr
  | .le => some .le
  | .ge => some .ge
  | .eq => some .eq
  | .ne => some .ne
  | .and => some .and
  | .or => some .or
  | .xor => some .xor
  | _ => none

/-- Operator of a compound assignment. -/
def assigned? : Symbol → Option Operator
  | .shlAssign => some .shl
  | .shrAssign => some .shr
  | .mulAssign => some .mul
  | .divAssign => some .div
  | .modAssign => some .mod
  | .addAssign => some .add
  | .subAssign => some .sub
  | .andAssign => some .bitAnd
  | .xorAssign => some .bitXor
  | .orAssign => some .bitOr
  | _ => none

end Symbol

namespace Token

inductive Kind
  | ident (name : String)
  | keyword (word : String)
  | literal (value : Scalar)
  | control (c : Char)
  | symbol (s : Symbol)
  | comment (text : String)
  /-- Stands behind the last token of a source. -/
  | endOfInput
  deriving DecidableEq, Repr

end Token

structure Token where
  kind : Token.Kind
  span : Span
  deriving DecidableEq, Repr

namespace Token

/-- Words that name a type. -/
def typeWords : List String := [
  "void", "float", "double", "int", "uint", "bool", "vec2", "vec3", "vec4", "dvec2", "dvec3",
  "dvec4", "ivec2", "ivec3", "ivec4", "uvec2", "uvec3", "uvec4", "bvec2", "bvec3", "bvec4", "mat2",
  "mat3", "mat4", "mat2x2", "mat2x3", "mat2x4", "mat3x2", "mat3x3", "mat3x4", "mat4x2", "mat4x3",
  "mat4x4", "dmat2", "dmat3", "dmat4", "dmat2x2", "dmat2x3", "dmat2x4", "dmat3x2", "dmat3x3",
  "dmat3x4", "dmat4x2", "dmat4x3", "dmat4x4"]

/-- Words that qualify a declaration. -/
def qualifierWords : List String := [
  "const", "in", "out", "inout", "uniform", "invariant", "coherent", "volatile", "restrict",
  "readonly", "writeonly"]

/-- Words that cannot be identifiers. -/
def keywords : List String := typeWords ++ "struct" :: qualifierWords

/-- Characters that are tokens of their own. -/
def controls : List Char := "()[]\x7b\x7d.,;:?=+-*/%<>!~&|^".toList

namespace Kind

def text : Kind → String
  | .ident name => name
  | .keyword word => "keyword " ++ word
  | .literal value => value.text
  | .control c => c.toString
  | .symbol s => s.text
  | .comment text => "/* " ++ text ++ " */"
  | .endOfInput => "end of input"

def isComment : Kind → Bool
  | .comment _ => true
  | _ => false

/-- Binary operator that a token is. -/
def operator? : Kind → Option Operator
  | .control '*' => some .mul
  | .control '/' => some .div
  | .control '%' => some .mod
  | .control '+' => some .add
  | .control '-' => some .sub
  | .control '<' => some .lt
  | .control '>' => some .gt
  | .control '&' => some .bitAnd
  | .control '^' => some .bitXor
  | .control '|' => some .bitOr
  | .symbol s => s.operator?
  | _ => none

/-- An assignment token, with the operator it combines with. -/
def assignment? : Kind → Option (Option Operator)
  | .control '=' => some none
  | .symbol s => s.assigned?.map some
  | _ => none

end Kind

end Token

end ShaderExpr
