import ShaderExpr.Expr

namespace ShaderExpr

/-- Why an expression has no value at compile time. -/
inductive Unfolded
  | notConstant
  /-- A constant holds a value that does not fit its declared type. -/
  | fault (cause : Fault)
  deriving Repr

namespace Folding

/-- Component `i` of an operand. -/
def component (v : Value) (i : Nat) : Except Unfolded Scalar :=
  match v.get? i with
  | some s => .ok s
  | none => .error (.fault (.componentOutOfRange v.ty i))

/-- Arithmetic on components of one type. Integers wrap around, and their division by zero gives
    the greatest number of the type. -/
def combine : Operator → Scalar → Scalar → Except Unfolded Scalar
  | .add, .float x, .float y => .ok (.float (x.add y))
  | .add, .double x, .double y => .ok (.double (x.add y))
  | .add, .int x, .int y => .ok (.int (x + y))
  | .add, .uint x, .uint y => .ok (.uint (x + y))
  | .sub, .float x, .float y => .ok (.float (x.sub y))
  | .sub, .double x, .double y => .ok (.double (x.sub y))
  | .sub, .int x, .int y => .ok (.int (x - y))
  | .sub, .uint x, .uint y => .ok (.uint (x - y))
  | .mul, .float x, .float y => .ok (.float (x.mul y))
  | .mul, .double x, .double y => .ok (.double (x.mul y))
  | .mul, .int x, .int y => .ok (.int (x * y))
  | .mul, .uint x, .uint y => .ok (.uint (x * y))
  | .div, .float x, .float y => .ok (.float (x.div y))
  | .div, .double x, .double y => .ok (.double (x.div y))
  | .div, .int x, .int y => .ok (.int (if y = 0 then 0x7fffffff else x / y))
  | .div, .uint x, .uint y => .ok (.uint (if y = 0 then 0xffffffff else x / y))
  | _, x, _ => .error (.fault (.unsupportedComponent x.type))

/-- Changes the sign. Integers wrap around. -/
def opposite : Scalar → Except Unfolded Scalar
  | .float x => .ok (.float x.neg)
  | .double x => .ok (.double x.neg)
  | .int n => .ok (.int (-n))
  | .uint n => .ok (.uint (-n))
  | .bool _ => .error (.fault (.unsupportedComponent .bool))

/-- An operand in the component type that an operator works in. -/
def operand (s : ScalarType) (v : Value) : Except Unfolded Value :=
  if v.ty.isStruct then .error (.fault (.noComponents v.ty))
  else match v.convert (v.ty.withComponent s) with
    | .ok w => .ok w
    | .error _ => .error .notConstant

/-- Combines component by component. A single component stands for all. -/
def componentwise (op : Operator) (ty : Ty) (left right : Value) : Except Unfolded Value := do
  let pick (v : Value) (i : Nat) := component v (if v.ty.componentCount = 1 then 0 else i)
  let results ← (List.range ty.componentCount).mapM fun i => do
    combine op (← pick left i) (← pick right i)
  return .ofComponents ty results

/-- Rows and columns of a factor. A vector is a row on the left and a column on the right. -/
def extent (onLeft : Bool) : Ty → Option (Nat × Nat)
  | .matrix _ columns rows => some (rows.toNat, columns.toNat)
  | .vector _ n => some (if onLeft then (1, n.toNat) else (n.toNat, 1))
  | _ => none

/-- Is a product one of linear algebra? -/
def isLinear (left right : Ty) : Bool :=
  (left.isMatrix && (right.isMatrix || right.isVector)) || (left.isVector && right.isMatrix)

/-- Sum over `k` of the products of row `row` of the left factor and column `column` of the right
    factor, from zero on. -/
def contraction (s : ScalarType) (left right : Value) (rows inner row column : Nat) :
    Except Unfolded Scalar :=
  (List.range inner).foldlM (fun sum k => do
    let x ← component left (k * rows + row)
    let y ← component right (column * inner + k)
    combine .add sum (← combine .mul x y)) (Scalar.zero s)

/-- Product of linear algebra, column by column. -/
def product (s : ScalarType) (ty : Ty) (left right : Value) : Except Unfolded Value :=
  match extent true left.ty, extent false right.ty with
  | some (rows, inner), some (_, columns) => do
    let results ← (List.range columns).mapM fun column =>
      (List.range rows).mapM fun row => contraction s left right rows inner row column
    match Value.ofComponents? ty results.flatten with
    | some v => return v
    | none => .error (.fault (.componentOutOfRange ty ty.componentCount))
  | _, _ => .error (.fault (.noComponents left.ty))

/-- One over every component. -/
def reciprocal (s : ScalarType) (v : Value) : Except Unfolded Value := do
  return .ofComponents v.ty (← v.components.mapM fun x => combine .div (.one s) x)

/-- Value of a product, sum, difference or quotient of type `ty`. Division by or of a matrix
    multiplies by the reciprocal. -/
def binary (op : Operator) (ty : Ty) (left right : Value) : Except Unfolded Value :=
  match ty.component? with
  | none => .error (.fault (.noComponents ty))
  | some s => do
    let left ← operand s left
    let right ← operand s right
    if op = .mul ∧ isLinear left.ty right.ty then product s ty left right
    else if op = .div ∧ (left.ty.isMatrix || right.ty.isMatrix) then
      componentwise .mul ty left (← reciprocal s right)
    else componentwise op ty left right

def negation (v : Value) : Except Unfolded Value :=
  if v.ty.isBasic then do
    return .ofComponents v.ty (← v.components.mapM opposite)
  else .ok v

/-- Positions of a matrix by columns: the column and the row of each. -/
def positions (columns rows : Nat) : List (Nat × Nat) :=
  (List.range columns).flatMap fun column => (List.range rows).map fun row => (column, row)

/-- Components of a type filled with one: everywhere in a vector, on the diagonal of a matrix. -/
def spread (ty : Ty) (x : Scalar) : List Scalar :=
  match ty with
  | .matrix s columns rows =>
    (positions columns.toNat rows.toNat).map fun (column, row) =>
      if column = row then x else .zero s
  | _ => List.replicate ty.componentCount x

/-- Constructor of a scalar, vector or matrix. A single scalar fills the type, a single matrix is
    cut or continued with the identity, and all else gives its components in order. -/
def construct (ty : Ty) (arguments : List Value) : Except Unfolded Value :=
  match arguments with
  | [v] =>
    if v.ty.isScalar then do
      return .ofComponents ty (spread ty (← component v 0))
    else match ty, v.ty with
      | .matrix s columns rows, .matrix _ columns' rows' => do
        let results ← (positions columns.toNat rows.toNat).mapM fun (column, row) =>
          if column < columns'.toNat ∧ row < rows'.toNat then
            component v (column * rows'.toNat + row)
          else .ok (if column = row then .one s else .zero s)
        return .ofComponents ty results
      | _, _ => .ok (.ofComponents ty v.components)
  | _ => .ok (.ofComponents ty (arguments.flatMap (·.components)))

/-- Selected components. A scalar has the same component everywhere. -/
def select (ty : Ty) (indexes : List Nat) (v : Value) : Except Unfolded Value := do
  return .ofComponents ty
    (← indexes.mapM fun i => component v (if v.ty.isScalar then 0 else i))

def orNotConstant : Option Value → Except Unfolded Value
  | some v => .ok v
  | none => .error .notConstant

end Folding

namespace Expr

mutual
/-- Value of an expression at compile time. Products, sums, differences, quotients, negations,
    constructors, calls, members and selections of constants are constants again. Assignments and
    the other operators never are. -/
def fold : Expr → Except Unfolded Value
  | constant value => .ok value
  | reference x => Folding.orNotConstant x.constant?
  | binary op ty left right =>
    match op.family with
    | .multiplication | .arithmetic => do Folding.binary op ty (← left.fold) (← right.fold)
    | _ => .error .notConstant
  | assign .. => .error .notConstant
  | negate operand => do Folding.negation (← operand.fold)
  | construct ty arguments => do Folding.construct ty (← foldAll arguments)
  | call f arguments => do Folding.orNotConstant (f.evaluate (← foldAll arguments))
  | member base index => do Folding.orNotConstant ((← base.fold).member? index)
  | swizzle base _ indexes => do
    Folding.select (swizzleType base.ty indexes.length) indexes (← base.fold)
def foldAll : List Expr → Except Unfolded (List Value)
  | [] => .ok []
  | e :: rest => do return (← e.fold) :: (← foldAll rest)
end

/-- Value of an expression at compile time, if it has one. -/
def constant? (e : Expr) : Except Fault (Option Value) :=
  match e.fold with
  | .ok v => .ok (some v)
  | .error .notConstant => .ok none
  | .error (.fault cause) => .error cause

end Expr

end ShaderExpr
