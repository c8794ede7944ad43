import ShaderExpr.Function
import ShaderExpr.Variable

namespace ShaderExpr

/-- Names that an expression can use: struct types and variables. The builtin functions are always
    there. -/
structure Scope where
  types : List (String × Ty)
  /-- In order of declaration, one for each name. -/
  declared : List Variable
  /-- Id of the next variable. It is counted without a bound, and is the 32-bit number that a variable
      is known by as long as fewer than `2 ^ 32` variables are declared. -/
  nextId : Nat

namespace Scope

def empty : Scope := ⟨[], [], 0⟩

def typeNamed (s : Scope) (name : String) : Option Ty :=
  (s.types.find? (·.1 = name)).map (·.2)

def variableNamed (s : Scope) (name : String) : Option Variable :=
  s.declared.find? (·.name = name)

/-- Every overload of a function. -/
def functions (_ : Scope) (name : String) : List Function :=
  match Builtin.ofName? name with
  | some b => b.overloads.map .builtin
  | none => []

def hasFunction (_ : Scope) (name : String) : Bool := (Builtin.ofName? name).isSome

/-- Names a type. There is no new scope when the name is taken. -/
def addType? (s : Scope) (name : String) (ty : Ty) : Option Scope :=
  if (s.typeNamed name).isSome then none else some { s with types := (name, ty) :: s.types }

/-- Puts a variable in the place of one of the same name, or else behind all others. -/
def place (x : Variable) : List Variable → List Variable
  | [] => [x]
  | y :: rest => if y.name = x.name then x :: rest else y :: place x rest

/-- Declares a variable under a new id. -/
def addVariable (s : Scope) (name : String) (ty : Ty) (qualifier : Qualifier)
    (initial : Option Value) : Variable × Scope :=
  let x : Variable := ⟨s.nextId, name, ty, qualifier, initial⟩
  (x, { s with declared := place x s.declared, nextId := s.nextId + 1 })

/-- Declares a parameter of the body function. -/
def addParameter (s : Scope) (name : String) (ty : Ty) : Variable × Scope :=
  s.addVariable name ty ⟨.parameter, []⟩ none

end Scope

end ShaderExpr
