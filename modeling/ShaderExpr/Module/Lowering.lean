import ShaderExpr.Expr.Folding
import ShaderExpr.Module.Place

namespace ShaderExpr

/-- A computed value: its id and its type. -/
structure Operand where
  id : Id
  ty : Ty

namespace Build

/-- The same shape over another component type. -/
def withComponent [Limits] (x : Operand) (s : ScalarType) : Build Operand :=
  if x.ty.isStruct then throw (.noComponents x.ty)
  else do
    let target := x.ty.withComponent s
    return ⟨← convert x.id x.ty target, target⟩

/-- Repeats a scalar operand of a vector result. -/
def broadcast [Limits] (x : Operand) (ty : Ty) : Build Id :=
  if x.ty.isScalar && ty.isVector then splat x.id ty else return x.id

/-- Component type of an operator's result. -/
def componentOf (ty : Ty) : Build ScalarType :=
  match ty.component? with
  | some s => return s
  | none => throw (.noComponents ty)

/-- Type of the columns of a matrix. -/
def columnOf (ty : Ty) : Build Ty :=
  match ty.element? with
  | some column => return column
  | none => throw (.noComponents ty)

/-- Applies an operation component by component. -/
def componentwise [Limits] (op : Opcode) (ty : Ty) (l r : Operand) : Build Id := do
  let a ← broadcast l ty
  let b ← broadcast r ty
  emit op ty [a, b]

/-- Product of operands with the component type of the result. -/
def product [Limits] (ty : Ty) (l r : Operand) : Build Id := do
  let floating := (← componentOf ty).isFloating
  let plain := componentwise (if floating then .fMul else .iMul) ty l r
  match l.ty, r.ty with
  | .matrix .., .matrix .. => emit .matrixTimesMatrix ty [l.id, r.id]
  | .vector .., .matrix .. => emit .vectorTimesMatrix ty [l.id, r.id]
  | .matrix .., .vector .. => emit .matrixTimesVector ty [l.id, r.id]
  | .matrix .., .scalar _ | .matrix .., .void => emit .matrixTimesScalar ty [l.id, r.id]
  | .scalar _, .matrix .. | .void, .matrix .. => emit .matrixTimesScalar ty [r.id, l.id]
  | .vector .., .scalar _ | .vector .., .void =>
    if floating then emit .vectorTimesScalar ty [l.id, r.id] else plain
  | .scalar _, .vector .. | .void, .vector .. =>
    if floating then emit .vectorTimesScalar ty [r.id, l.id] else plain
  | _, _ => plain

/-- Column `i` of a matrix, or the same repeated scalar for every column. -/
def columnPart [Limits] (repeated : Option Id) (column : Ty) (x : Id) (i : Nat) : Build Id :=
  match repeated with
  | some id => return id
  | none => emit .compositeExtract column [x, UInt32.ofNat i]

/-- A scalar operand repeated once for all columns. -/
def repeatedColumn [Limits] (column : Ty) (x : Operand) : Build (Option Id) :=
  if x.ty.isScalar then some <$> splat x.id column else return none

/-- Applies an operation to the columns of a matrix result. -/
def perColumn [Limits] (op : Opcode) (ty : Ty) (l r : Operand) : Build Id := do
  let column ← columnOf ty
  let left ← repeatedColumn column l
  let right ← repeatedColumn column r
  let columns ← (List.range ty.length).mapM fun i => do
    let a ← columnPart left column l.id i
    let b ← columnPart right column r.id i
    emit op column [a, b]
  emit .compositeConstruct ty columns

/-- One over an operand, column by column for a matrix. -/
def reciprocal [Limits] (x : Operand) : Build Id := do
  if x.ty.isMatrix then
    let column ← columnOf x.ty
    let ones ← oneId column
    let columns ← (List.range x.ty.length).mapM fun i => do
      let c ← emit .compositeExtract column [x.id, UInt32.ofNat i]
      emit .fDiv column [ones, c]
    emit .compositeConstruct x.ty columns
  else
    let one ← oneId x.ty
    emit .fDiv x.ty [one, x.id]

/-- Division by or of a matrix multiplies by the reciprocal. -/
def matrixDivision [Limits] (ty : Ty) (l r : Operand) : Build Id := do
  let inverse ← reciprocal r
  if l.ty.isScalar then emit .matrixTimesScalar ty [inverse, l.id]
  else if r.ty.isScalar then emit .matrixTimesScalar ty [l.id, inverse]
  else perColumn .fMul ty l ⟨inverse, r.ty⟩

/-- Opcode of a sum, difference or quotient. -/
def arithmeticOpcode? : Operator → ScalarType → Option Opcode
  | .add, .float | .add, .double => some .fAdd
  | .add, _ => some .iAdd
  | .sub, .float | .sub, .double => some .fSub
  | .sub, _ => some .iSub
  | .div, .float | .div, .double => some .fDiv
  | .div, .uint => some .uDiv
  | .div, _ => some .sDiv
  | _, _ => none

/-- Opcode of a remainder or of an operation on bits. -/
def integerOpcode? : Operator → ScalarType → Option Opcode
  | .mod, .uint => some .uMod
  | .mod, _ => some .sMod
  | .bitAnd, _ => some .bitwiseAnd
  | .bitXor, _ => some .bitwiseXor
  | .bitOr, _ => some .bitwiseOr
  | _, _ => none

/-- Opcode of a shift. Shifting to the right keeps the sign of a signed operand. -/
def shiftOpcode (op : Operator) (s : Option ScalarType) : Opcode :=
  if op = .shl then .shiftLeftLogical
  else if s = some .int then .shiftRightArithmetic
  else .shiftRightLogical

def relationOpcode? : Operator → ScalarType → Option Opcode
  | .lt, .int => some .sLessThan
  | .lt, .uint => some .uLessThan
  | .lt, _ => some .fOrdLessThan
  | .gt, .int => some .sGreaterThan
  | .gt, .uint => some .uGreaterThan
  | .gt, _ => some .fOrdGreaterThan
  | .le, .int => some .sLessThanEqual
  | .le, .uint => some .uLessThanEqual
  | .le, _ => some .fOrdLessThanEqual
  | .ge, .int => some .sGreaterThanEqual
  | .ge, .uint => some .uGreaterThanEqual
  | .ge, _ => some .fOrdGreaterThanEqual
  | _, _ => none

def logicalOpcode? : Operator → Option Opcode
  | .and => some .logicalAnd
  | .or => some .logicalOr
  | .xor => some .logicalNotEqual
  | _ => none

def equalityOpcode (equal : Bool) (s : Option ScalarType) : Opcode :=
  match equal, s with
  | true, some .bool => .logicalEqual
  | true, some .float | true, some .double => .fOrdEqual
  | true, _ => .iEqual
  | false, some .bool => .logicalNotEqual
  | false, some .float | false, some .double => .fUnordNotEqual
  | false, _ => .iNotEqual

/-- An opcode that the family of an operator has. -/
def opcodeOf (op : Option Opcode) (s : ScalarType) : Build Opcode :=
  match op with
  | some op => return op
  | none => throw (.unsupportedComponent s)

def arithmetic [Limits] (op : Operator) (ty : Ty) (l r : Operand) : Build Id := do
  if op = .div ∧ (l.ty.isMatrix || r.ty.isMatrix) then matrixDivision ty l r
  else
    let s ← componentOf ty
    let opcode ← opcodeOf (arithmeticOpcode? op s) s
    if ty.isMatrix then perColumn opcode ty l r else componentwise opcode ty l r

/-- Compares two scalars or two vectors as a whole. -/
def vectorEquality [Limits] (equal : Bool) (ty : Ty) (l r : Id) : Build Id := do
  let opcode := equalityOpcode equal ty.component?
  match ty with
  | .vector _ n =>
    let components ← emit opcode (.vector .bool n) [l, r]
    emit (if equal then .allTrue else .anyTrue) (.scalar .bool) [components]
  | _ => emit opcode (.scalar .bool) [l, r]

/-- Compares the columns of two matrices from number `i` on, after those compared `sofar`. -/
def columnsEquality [Limits] (equal : Bool) (column : Ty) (l r : Id) : Nat → Nat → Id → Build Id
  | 0, _, sofar => return sofar
  | count + 1, i, sofar => do
    let a ← emit .compositeExtract column [l, UInt32.ofNat i]
    let b ← emit .compositeExtract column [r, UInt32.ofNat i]
    let same ← vectorEquality equal column a b
    let both ← emit (if equal then .logicalAnd else .logicalOr) (.scalar .bool) [sofar, same]
    columnsEquality equal column l r count (i + 1) both

/-- Compares two values of type `ty` as a whole. -/
def equality [Limits] (equal : Bool) (ty : Ty) (l r : Id) : Build Id := do
  match ty with
  | .struct .. => throw (.noComponents ty)
  | .matrix s columns rows =>
    let column := Ty.vector s rows
    let a ← emit .compositeExtract column [l, 0]
    let b ← emit .compositeExtract column [r, 0]
    let first ← vectorEquality equal column a b
    columnsEquality equal column l r (columns.toNat - 1) 1 first
  | _ => vectorEquality equal ty l r

/-- Component type that both operands of a comparison are converted to. -/
def commonOf (l r : Operand) : Build ScalarType :=
  match commonComponent l.ty r.ty with
  | .ok s => return s
  | .error _ => throw (.noConversion l.ty r.ty)

/-- What the components of a vector are shifted by: a scalar is repeated for all of them. -/
def shiftAmount [Limits] (l r : Operand) : Build Id :=
  match l.ty, r.ty.component? with
  | .vector _ n, some s => if r.ty.isScalar then splat r.id (.vector s n) else return r.id
  | _, _ => return r.id

/-- A remainder or an operation on the bits of components `s`. -/
def integral [Limits] (op : Operator) (ty : Ty) (s : ScalarType) (l r : Operand) : Build Id := do
  let opcode ← opcodeOf (integerOpcode? op s) s
  componentwise opcode ty l r

/-- Compares two scalars of type `s` by their order. -/
def relation [Limits] (op : Operator) (s : ScalarType) (l r : Operand) : Build Id := do
  let opcode ← opcodeOf (relationOpcode? op s) s
  emit opcode (.scalar .bool) [l.id, r.id]

/-- Applies an operator, where `ty` is the type it gives to its operands. -/
def binary [Limits] (op : Operator) (ty : Ty) (l r : Operand) : Build Id := do
  match op.family with
  | .multiplication =>
    let s ← componentOf ty
    let l ← withComponent l s
    let r ← withComponent r s
    product ty l r
  | .arithmetic =>
    let s ← componentOf ty
    let l ← withComponent l s
    let r ← withComponent r s
    arithmetic op ty l r
  | .modulo | .bitwise =>
    let s ← componentOf ty
    let l ← withComponent l s
    let r ← withComponent r s
    integral op ty s l r
  | .shift =>
    let amount ← shiftAmount l r
    emit (shiftOpcode op l.ty.component?) ty [l.id, amount]
  | .relational =>
    let s ← commonOf l r
    let l ← withComponent l s
    let r ← withComponent r s
    relation op s l r
  | .equality =>
    let s ← commonOf l r
    let l ← withComponent l s
    let r ← withComponent r s
    equality (op = .eq) l.ty l.id r.id
  | .logical =>
    let opcode ← opcodeOf (logicalOpcode? op) .bool
    emit opcode (.scalar .bool) [l.id, r.id]

/-- Changes the sign, column by column for a matrix. -/
def negation [Limits] (x : Operand) : Build Id := do
  let opcode : Opcode := if x.ty.component?.any (·.isFloating) then .fNegate else .sNegate
  if x.ty.isMatrix then
    let column ← columnOf x.ty
    let columns ← (List.range x.ty.length).mapM fun i => do
      let c ← emit .compositeExtract column [x.id, UInt32.ofNat i]
      emit opcode column [c]
    emit .compositeConstruct x.ty columns
  else emit opcode x.ty [x.id]

/-- All components of an operand in order. -/
def componentIds [Limits] (x : Operand) : Build (List Id) :=
  match x.ty with
  | .void | .scalar _ => return [x.id]
  | .vector s n =>
    (List.range n.toNat).mapM fun i => emit .compositeExtract (.scalar s) [x.id, UInt32.ofNat i]
  | .matrix s columns rows =>
    (Folding.positions columns.toNat rows.toNat).mapM fun (column, row) =>
      emit .compositeExtract (.scalar s) [x.id, UInt32.ofNat column, UInt32.ofNat row]
  | .struct .. => throw (.noComponents x.ty)

/-- The first `count` components of all arguments, converted to `s`. An argument behind them is not
    taken apart. -/
def gather [Limits] (s : ScalarType) (count : Nat) : List Operand → List Id → Build (List Id)
  | [], found => return found.take count
  | x :: rest, found =>
    if count ≤ found.length then return found.take count
    else do
      let x ← withComponent x s
      let more ← componentIds x
      gather s count rest (found ++ more)

/-- A matrix from the components at its positions, column after column. -/
def assemble [Limits] (ty : Ty) (s : ScalarType) (columns rows : Dim)
    (component : Nat → Nat → Build Id) : Build Id := do
  let ids ← (List.range columns.toNat).mapM fun column => do
    let components ← (List.range rows.toNat).mapM fun row => component column row
    emit .compositeConstruct (.vector s rows) components
  emit .compositeConstruct ty ids

/-- A value of the components of all arguments in order. -/
def constructInOrder [Limits] (ty : Ty) (s : ScalarType) (arguments : List Operand) : Build Id := do
  let components ← gather s ty.componentCount arguments []
  match ty with
  | .vector .. => emit .compositeConstruct ty components
  | .matrix s columns rows =>
    let ids ← (List.range columns.toNat).mapM fun column =>
      emit .compositeConstruct (.vector s rows)
        ((components.drop (column * rows.toNat)).take rows.toNat)
    emit .compositeConstruct ty ids
  | _ =>
    match components with
    | id :: _ => return id
    | [] => throw (.componentOutOfRange ty 0)

/-- A type filled with one component: on the diagonal of a matrix, everywhere in anything else. -/
def filled [Limits] (ty : Ty) (value : Id) : Build Id := do
  match ty with
  | .matrix s columns rows =>
    let zero ← zeroId (.scalar s)
    assemble ty s columns rows fun column row => return if row = column then value else zero
  | _ => splat value ty

/-- A matrix of other dimensions, cut or continued with the identity. Its source has the given
    numbers of columns and rows, and components `s`. -/
def resized [Limits] (s : ScalarType) (columns rows columns' rows' : Dim) (source : Id) :
    Build Id := do
  let zero ← zeroId (.scalar s)
  let one ← oneId (.scalar s)
  assemble (.matrix s columns rows) s columns rows fun column row =>
    if column < columns'.toNat ∧ row < rows'.toNat then
      emit .compositeExtract (.scalar s) [source, UInt32.ofNat column, UInt32.ofNat row]
    else return if column = row then one else zero

/-- Constructor of a scalar, vector or matrix. A single scalar fills the type, a single matrix is
    cut or continued with the identity, and all else gives its components in order. -/
def construct [Limits] (ty : Ty) (arguments : List Operand) : Build Id := do
  let s ← componentOf ty
  match arguments with
  | [x] =>
    if x.ty.isScalar then
      let value ← withComponent x s
      filled ty value.id
    else match ty, x.ty with
      | .matrix s columns rows, .matrix _ columns' rows' =>
        let source ← withComponent x s
        resized s columns rows columns' rows' source.id
      | _, _ => constructInOrder ty s arguments
  | _ => constructInOrder ty s arguments

/-- Extended instruction of a builtin function over a component type, of which some have one for
    each kind of number. -/
def extendedOp? (b : Builtin) (s : ScalarType) (arity : Nat) : Option ExtendedOp :=
  let choose (float int uint : ExtendedOp) : ExtendedOp :=
    match s with
    | .int => int
    | .uint => uint
    | _ => float
  match b with
  | .radians => some .radians
  | .degrees => some .degrees
  | .sin => some .sin
  | .cos => some .cos
  | .tan => some .tan
  | .asin => some .asin
  | .acos => some .acos
  | .atan => some (if arity = 2 then .atan2 else .atan)
  | .pow => some .pow
  | .exp => some .exp
  | .log => some .log
  | .exp2 => some .exp2
  | .log2 => some .log2
  | .sqrt => some .sqrt
  | .inversesqrt => some .inverseSqrt
  | .abs => some (choose .fAbs .sAbs .sAbs)
  | .sign => some (choose .fSign .sSign .sSign)
  | .floor => some .floor
  | .trunc => some .trunc
  | .round => some .round
  | .roundEven => some .roundEven
  | .ceil => some .ceil
  | .fract => some .fract
  | .min => some (choose .fMin .sMin .uMin)
  | .max => some (choose .fMax .sMax .uMax)
  | .clamp => some (choose .fClamp .sClamp .uClamp)
  | .mix => some .fMix
  | .step => some .step
  | .smoothstep => some .smoothStep
  | .length => some .length
  | .distance => some .distance
  | .cross => some .cross
  | .normalize => some .normalize
  | .mod | .isnan | .isinf | .dot => none

/-- Ordinary instruction of a builtin function without an extended one. The product of two scalars
    is their dot product. -/
def plainOp (b : Builtin) (scalar : Bool) : Opcode :=
  match b with
  | .mod => .fMod
  | .isnan => .isNan
  | .isinf => .isInf
  | _ => if scalar then .fMul else .dot

/-- Repeats the scalar arguments of a vector overload. -/
def widen [Limits] (ty : Ty) (id : Id) (width : Option Dim) : Build Id :=
  match ty, width with
  | .scalar s, some n => splat id (.vector s n)
  | _, _ => return id

/-- Call of a builtin function with arguments of the types of its parameters. -/
def builtinCall [Limits] (f : Signature) (arguments : List Id) : Build Id := do
  let width := if f.builtin.isReducing then none
    else Dim.ofNat? ((f.parameters.map Ty.length).foldl max 0)
  let arguments ← (arguments.zip f.parameters).mapM fun (id, t) => widen t id width
  let first := f.parameters.headD .void
  match extendedOp? f.builtin (first.component?.getD .float) arguments.length with
  | some op => emitExtended f.result (UInt32.ofNat op.number) arguments
  | none => emit (plainOp f.builtin first.isScalar) f.result arguments

/-- Call of a function with arguments of the types of its parameters. -/
def functionCall [Limits] (f : Function) (arguments : List Id) : Build Id :=
  match f with
  | .builtin s => builtinCall s arguments
  | .constructor ty => emit .compositeConstruct ty arguments

/-- The place that an expression denotes. Expressions that only have a value denote none. -/
def place? [Limits] : Expr → Build (Option Place)
  | .reference x => some <$> placeOf x
  | .member base index => do
    match ← place? base with
    | some p => some <$> memberPlace p index (base.ty.memberType index)
    | none => return none
  | .swizzle base _ indexes => do
    match ← place? base with
    | some p => some <$> (p.select indexes : Except Fault Place)
    | none => return none
  | _ => return none

/-- What is stored to a place of type `target`: a value, or what an operator gives for the contents
    of the place and the value. -/
def assignedValue [Limits] (op : Option Operator) (ty target : Ty) (p : Place) (value : Operand) :
    Build Id :=
  match op with
  | some op => do
    let current ← load p
    let result ← binary op ty ⟨current, target⟩ value
    convert result ty target
  | none => convert value.id value.ty target

/-- Stores a value to a place, converted to its type. The new contents are the result. -/
def assign [Limits] (op : Option Operator) (ty : Ty) (p : Place) (value : Operand) : Build Id := do
  let stored ← assignedValue op ty (← p.ty?) p value
  store p stored
  return stored

/-- The value of an expression that is known without code. -/
def folded? (e : Expr) : Build (Option Value) := do
  if (← get).options.foldConstants then (e.constant? : Except Fault _) else return none

/-- Value of an expression without code, or the contents of its place, or else what `code` gives. -/
def valueOf [Limits] (e : Expr) (code : Build Id) : Build Id := do
  match ← folded? e with
  | some value => valueId value
  | none =>
    match ← place? e with
    | some p => load p
    | none => code

mutual
/-- Emits straight-line code for an expression. Operands are converted to the component type that an
    operator works in before the operator itself is emitted. -/
def expr [Limits] : Expr → Build Id
  | .constant value => valueOf (.constant value) (valueId value)
  | .reference x => valueOf (.reference x) (throw .noPlace)
  | .binary op ty left right => valueOf (.binary op ty left right) do
    let l ← expr left
    let r ← expr right
    binary op ty ⟨l, left.ty⟩ ⟨r, right.ty⟩
  | .assign op ty target value => valueOf (.assign op ty target value) do
    match ← place? target with
    | none => throw .noPlace
    | some p =>
      let v ← expr value
      assign op ty p ⟨v, value.ty⟩
  | .negate operand => valueOf (.negate operand) do
    let x ← expr operand
    negation ⟨x, operand.ty⟩
  | .construct ty arguments => valueOf (.construct ty arguments) do
    let operands ← operands arguments
    construct ty operands
  | .call f arguments => valueOf (.call f arguments) do
    let ids ← converted arguments f.parameters
    functionCall f ids
  | .member base index => valueOf (.member base index) do
    let x ← expr base
    emit .compositeExtract (base.ty.memberType index) [x, UInt32.ofNat index]
  | .swizzle base letters indexes => valueOf (.swizzle base letters indexes) do
    let x ← expr base
    selectComponents x base.ty (Expr.swizzleType base.ty indexes.length) indexes
def operands [Limits] : List Expr → Build (List Operand)
  | [] => return []
  | e :: rest => do return ⟨← expr e, e.ty⟩ :: (← operands rest)
/-- Arguments, each converted to the type of its parameter. -/
def converted [Limits] : List Expr → List Ty → Build (List Id)
  | e :: rest, t :: parameters => do
    let x ← expr e
    let id ← convert x e.ty t
    return id :: (← converted rest parameters)
  | _, _ => return []
end

end Build

end ShaderExpr
