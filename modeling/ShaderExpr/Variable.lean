import ShaderExpr.Value

namespace ShaderExpr

/-- Where a variable is stored. -/
inductive Storage
  /-- Of the module, private to the invocation. -/
  | global
  /-- Of the body function. -/
  | body
  /-- Parameter of the body function. -/
  | parameter
  | input
  | output
  | uniform
  deriving DecidableEq, Repr

namespace Storage

def name : Storage → String
  | .global => "global"
  | .body => "local"
  | .parameter => "parameter"
  | .input => "in"
  | .output => "out"
  | .uniform => "uniform"

/-- Storage whose contents a declaration can give. -/
def canInitialize : Storage → Bool
  | .global | .body => true
  | _ => false

end Storage

/-- Qualifiers that do not say where a variable lives. -/
inductive Modifier
  | constant | invariant | coherent | volatile | restrict | readOnly | writeOnly
  deriving DecidableEq, Repr

def Modifier.all : List Modifier :=
  [.constant, .invariant, .coherent, .volatile, .restrict, .readOnly, .writeOnly]

structure Qualifier where
  storage : Storage := .global
  modifiers : List Modifier := []
  deriving DecidableEq, Repr

namespace Qualifier

def has (q : Qualifier) (m : Modifier) : Bool := q.modifiers.contains m

def isConstant (q : Qualifier) : Bool := q.has .constant

/-- Variables that no assignment may change. -/
def isReadOnly (q : Qualifier) : Bool :=
  q.isConstant || q.has .readOnly || q.storage = .input || q.storage = .uniform

end Qualifier

/-- A variable: where it is stored and how it is qualified, and the value it starts with, if it has
    one. -/
structure Variable where
  id : Nat
  name : String
  ty : Ty
  qualifier : Qualifier
  /-- What the variable holds before the body runs. -/
  initial : Option Value
  deriving DecidableEq

namespace Variable

def isParameter (x : Variable) : Bool := x.qualifier.storage = .parameter

/-- Value of a constant. -/
def constant? (x : Variable) : Option Value :=
  if x.qualifier.isConstant then x.initial else none

end Variable

end ShaderExpr
