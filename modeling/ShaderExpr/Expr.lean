import ShaderExpr.Fault
import ShaderExpr.Function
import ShaderExpr.Operator
import ShaderExpr.Variable

namespace ShaderExpr

/-- Sets of letters that name the components of a vector. -/
inductive Letters
  | position | color | texture
  deriving DecidableEq, Repr

namespace Letters

def all : List Letters := [.position, .color, .texture]

def text : Letters → String
  | .position => "xyzw"
  | .color => "rgba"
  | .texture => "stpq"

/-- The set that has a letter. -/
def containing? (c : Char) : Option Letters := all.find? fun l => l.text.toList.contains c

/-- Component that a letter of the set names. -/
def index? (l : Letters) (c : Char) : Option Nat := l.text.toList.findIdx? (· = c)

def letter (l : Letters) (index : Nat) : Char := (l.text.toList[index]?).getD '?'

end Letters

/-- An expression whose names and overloads are resolved. Nodes whose type is not that of their
    parts carry it. -/
inductive Expr
  | constant (value : Value)
  | reference (x : Variable)
  /-- `ty` is the type that the operator gives to its operands. -/
  | binary (op : Operator) (ty : Ty) (left right : Expr)
  /-- `ty` is the type of what is assigned, before its conversion to the type of the target. A
      compound assignment has an operator. -/
  | assign (op : Option Operator) (ty : Ty) (target value : Expr)
  | negate (operand : Expr)
  /-- Constructor of a scalar, vector or matrix. -/
  | construct (ty : Ty) (arguments : List Expr)
  | call (f : Function) (arguments : List Expr)
  | member (base : Expr) (index : Nat)
  | swizzle (base : Expr) (letters : Letters) (indexes : List Nat)

namespace Expr

/-- Stands for an expression that could not be read. It is a well-typed constant, so that reading
    can go on around it. -/
def placeholder : Expr := .constant (.ofScalar (.float ⟨0⟩))

instance : Inhabited Expr := ⟨placeholder⟩

/-- Type of a selection of components. -/
def swizzleType (base : Ty) (count : Nat) : Ty :=
  (base.component?.bind fun s => Ty.ofComponents? s count).getD .void

def ty : Expr → Ty
  | constant value => value.ty
  | reference x => x.ty
  | binary _ ty _ _ => ty
  | assign _ _ target _ => target.ty
  | negate operand => operand.ty
  | construct ty _ => ty
  | call f _ => f.result
  | member base index => base.ty.memberType index
  | swizzle base _ indexes => swizzleType base.ty indexes.length

/-- Can an assignment write to this expression? A component must not be selected twice. -/
def isAssignable : Expr → Bool
  | reference _ => true
  | member base _ => base.isAssignable
  | swizzle base _ indexes => indexes.eraseDups.length = indexes.length && base.isAssignable
  | _ => false

/-- The variable that an assignment to this expression writes to. -/
def assigned? : Expr → Option Variable
  | reference x => some x
  | member base _ => base.assigned?
  | swizzle base _ _ => base.assigned?
  | _ => none

/-- Is the value a single component? -/
def isScalarValued (e : Expr) : Bool :=
  match e.ty with
  | .scalar _ => true
  | _ => false

end Expr

end ShaderExpr
