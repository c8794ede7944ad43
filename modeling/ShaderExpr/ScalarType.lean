namespace ShaderExpr

/-- Type of one component of a value. -/
inductive ScalarType
  | float | double | int | uint | bool
  deriving DecidableEq, Repr

namespace ScalarType

/-- All component types, in the order of their declaration. -/
def all : List ScalarType := [.float, .double, .int, .uint, .bool]

def name : ScalarType → String
  | .float => "float"
  | .double => "double"
  | .int => "int"
  | .uint => "uint"
  | .bool => "bool"

/-- Letter in front of the vectors and matrices of a component type. -/
def letter : ScalarType → String
  | .float => ""
  | .double => "d"
  | .int => "i"
  | .uint => "u"
  | .bool => "b"

/-- Size of a component in words. Booleans occupy a word. -/
def words : ScalarType → Nat
  | .double => 2
  | _ => 1

/-- Size of a component in bytes. -/
def size (s : ScalarType) : Nat := 4 * s.words

def isInteger : ScalarType → Bool
  | .int | .uint => true
  | _ => false

def isFloating : ScalarType → Bool
  | .float | .double => true
  | _ => false

/-- Place in the chain of promotions. Booleans are outside of it. -/
def rank? : ScalarType → Option Nat
  | .int => some 0
  | .uint => some 1
  | .float => some 2
  | .double => some 3
  | .bool => none

/-- Implicit conversion goes up the chain of promotions. A boolean only converts to itself. -/
def convertsTo (source target : ScalarType) : Bool :=
  match source.rank?, target.rank? with
  | some a, some b => a ≤ b
  | _, _ => source = target

end ScalarType

end ShaderExpr
