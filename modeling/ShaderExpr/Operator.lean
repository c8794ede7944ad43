import ShaderExpr.Ty

namespace ShaderExpr

inductive Operator
  | mul | div | mod | add | sub | shl | shr | lt | gt | le | ge | eq | ne
  | bitAnd | bitXor | bitOr | and | xor | or
  deriving DecidableEq, Repr

/-- How an operator combines its operands. -/
inductive Family
  | multiplication | arithmetic | modulo | shift | bitwise | relational | equality | logical
  deriving DecidableEq, Repr

/-- Why two operand types do not go together. -/
inductive OperandError
  | noCommonComponent (left right : Ty)
  | notBasic (left right : Ty)
  | multipliedBooleans
  | innerDimensions (left right : Ty)
  | columnCount (left right : Ty)
  | rowCount (left right : Ty)
  | factorLengths (left right : Ty)
  | booleanArithmetic (left right : Ty)
  | matrixSizes (left right : Ty)
  | vectorWithMatrix (vector matrix : Ty)
  | termLengths (left right : Ty)
  | notInteger (left right : Ty)
  | lengths (left right : Ty)
  | shiftByVector (left right : Ty)
  | notNumber (left right : Ty)
  | notComparable (left right : Ty)
  | notBoolean (left right : Ty)
  deriving DecidableEq, Repr

def OperandError.message : OperandError → String
  | noCommonComponent l r => both l r "do not share compatible scalar types."
  | notBasic l r => both l r "are not scalars, vectors or matrices."
  | multipliedBooleans => "Cannot multiply booleans."
  | innerDimensions l r =>
    "Matrices to multiplication have incompatible dimensions: " ++ pair l r ++ "."
  | columnCount l r => "Matrix column count doesn't match vector length: " ++ pair l r ++ "."
  | rowCount l r => "Vector length doesn't match matrix row count: " ++ pair l r ++ "."
  | factorLengths l r =>
    "Vector operands " ++ pair l r ++ " to multiplication have different length."
  | booleanArithmetic l r => both l r "are booleans, which do not support arithmetic."
  | matrixSizes l r => "Matrix types " ++ pair l r ++ " have different size."
  | vectorWithMatrix v m =>
    "Cannot perform arithmetic on vector " ++ v.text ++ " and matrix " ++ m.text ++ "."
  | termLengths l r =>
    "Vector operands " ++ pair l r ++ " to arithmetic operation have different length."
  | notInteger l r => both l r "must be integer scalars or vectors."
  | lengths l r => "Vector operands " ++ pair l r ++ " do not have the same length."
  | shiftByVector l r =>
    "Right operand " ++ r.text ++ " to shift cannot be a vector if left operand " ++ l.text ++
      " is a scalar."
  | notNumber l r => both l r "must be non-boolean scalars."
  | notComparable l r => "Cannot compare types " ++ pair l r ++ "."
  | notBoolean l r => both l r "cannot both be converted to bool."
where
  pair (l r : Ty) : String := l.text ++ " and " ++ r.text
  both (l r : Ty) (problem : String) : String := "Operand types " ++ pair l r ++ " " ++ problem

namespace Operator

def all : List Operator :=
  [.mul, .div, .mod, .add, .sub, .shl, .shr, .lt, .gt, .le, .ge, .eq, .ne, .bitAnd, .bitXor,
    .bitOr, .and, .xor, .or]

def text : Operator → String
  | .mul => "*"
  | .div => "/"
  | .mod => "%"
  | .add => "+"
  | .sub => "-"
  | .shl => "<<"
  | .shr => ">>"
  | .lt => "<"
  | .gt => ">"
  | .le => "<="
  | .ge => ">="
  | .eq => "=="
  | .ne => "!="
  | .bitAnd => "&"
  | .bitXor => "^"
  | .bitOr => "|"
  | .and => "&&"
  | .xor => "^^"
  | .or => "||"

def family : Operator → Family
  | .mul => .multiplication
  | .div | .add | .sub => .arithmetic
  | .mod => .modulo
  | .shl | .shr => .shift
  | .bitAnd | .bitXor | .bitOr => .bitwise
  | .lt | .gt | .le | .ge => .relational
  | .eq | .ne => .equality
  | .and | .xor | .or => .logical

/-- Binding strength. Higher binds tighter. -/
def precedence : Operator → Nat
  | .mul | .div | .mod => 12
  | .add | .sub => 11
  | .shl | .shr => 10
  | .lt | .gt | .le | .ge => 9
  | .eq | .ne => 8
  | .bitAnd => 7
  | .bitXor => 6
  | .bitOr => 5
  | .and => 4
  | .xor => 3
  | .or => 2

end Operator

/-- Component type that both operands are converted to before they are combined. -/
def commonComponent (left right : Ty) : Except OperandError ScalarType :=
  match left.component?, right.component? with
  | some l, some r =>
    if l.convertsTo r then .ok r
    else if r.convertsTo l then .ok l
    else .error (.noCommonComponent left right)
  | _, _ => .error (.noCommonComponent left right)

namespace Operator

/-- Products of matrices and vectors are those of linear algebra, with vectors as rows on the left
    and as columns on the right. Other products go component by component. -/
def productType (left right : Ty) : Except OperandError Ty :=
  if !(left.isBasic && right.isBasic) then .error (.notBasic left right)
  else if left.component? = some .bool ∨ right.component? = some .bool then
    .error .multipliedBooleans
  else do
    let s ← commonComponent left right
    match left, right with
    | .matrix _ columns rows, .matrix _ columns' rows' =>
      if columns = rows' then .ok (.matrix s columns' rows)
      else .error (.innerDimensions left right)
    | .matrix _ columns rows, .vector _ n =>
      if columns = n then .ok (.vector s rows) else .error (.columnCount left right)
    | .vector _ n, .matrix _ columns rows =>
      if n = rows then .ok (.vector s columns) else .error (.rowCount left right)
    | .vector _ m, .vector _ n =>
      if m = n then .ok (.vector s m) else .error (.factorLengths left right)
    | .scalar _, other => .ok (other.withComponent s)
    | other, _ => .ok (other.withComponent s)

/-- Sums, differences and quotients go component by component, a scalar operand standing for all
    of its components. -/
def arithmeticType (left right : Ty) : Except OperandError Ty :=
  if !(left.isBasic && right.isBasic) then .error (.notBasic left right)
  else if left.component? = some .bool ∨ right.component? = some .bool then
    .error (.booleanArithmetic left right)
  else do
    let s ← commonComponent left right
    match left, right with
    | .matrix _ columns rows, .matrix _ columns' _ =>
      -- The element types are compared with their component types.
      if columns = columns' ∧ left.element? = right.element? then .ok (.matrix s columns rows)
      else .error (.matrixSizes left right)
    | .matrix .., .vector .. => .error (.vectorWithMatrix right left)
    | .vector .., .matrix .. => .error (.vectorWithMatrix left right)
    | .vector _ m, .vector _ n =>
      if m = n then .ok (.vector s m) else .error (.termLengths left right)
    | .scalar _, other => .ok (other.withComponent s)
    | other, _ => .ok (other.withComponent s)

def isIntegral (t : Ty) : Bool :=
  match t with
  | .scalar s | .vector s _ => s.isInteger
  | _ => false

/-- One unsigned operand makes the result unsigned, one vector makes it a vector. -/
def integerType (left right : Ty) : Except OperandError Ty :=
  if !(isIntegral left && isIntegral right) then .error (.notInteger left right)
  else
    let s := if left.component? = some .uint ∨ right.component? = some .uint then
      ScalarType.uint else .int
    match left, right with
    | .vector _ m, .vector _ n =>
      if m = n then .ok (.vector s m) else .error (.lengths left right)
    | .vector _ n, _ => .ok (.vector s n)
    | _, .vector _ n => .ok (.vector s n)
    | _, _ => .ok (.scalar s)

/-- A shift has the type of what is shifted. -/
def shiftType (left right : Ty) : Except OperandError Ty :=
  if !(isIntegral left && isIntegral right) then .error (.notInteger left right)
  else match left, right with
    | .scalar _, .vector .. => .error (.shiftByVector left right)
    | .vector _ m, .vector _ n => if m = n then .ok left else .error (.lengths left right)
    | _, _ => .ok left

def isNumber : Ty → Bool
  | .scalar s => s ≠ .bool
  | _ => false

def relationType (left right : Ty) : Except OperandError Ty :=
  if isNumber left && isNumber right then do
    let _ ← commonComponent left right
    .ok (.scalar .bool)
  else .error (.notNumber left right)

def equalityType (left right : Ty) : Except OperandError Ty :=
  if !(left.isBasic && right.isBasic) then .error (.notBasic left right)
  else if left.convertsTo right || right.convertsTo left then .ok (.scalar .bool)
  else .error (.notComparable left right)

def logicalType (left right : Ty) : Except OperandError Ty :=
  if left.convertsTo (.scalar .bool) && right.convertsTo (.scalar .bool) then .ok (.scalar .bool)
  else .error (.notBoolean left right)

/-- The type that an operator gives to the types of its operands. Each family of operators has a
    check of its own. -/
def resultType (op : Operator) (left right : Ty) : Except OperandError Ty :=
  match op.family with
  | .multiplication => productType left right
  | .arithmetic => arithmeticType left right
  | .modulo | .bitwise => integerType left right
  | .shift => shiftType left right
  | .relational => relationType left right
  | .equality => equalityType left right
  | .logical => logicalType left right

end Operator

end ShaderExpr
