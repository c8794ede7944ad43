import Mathlib.Data.List.Forall2
import ShaderExpr.Module.Builder

namespace ShaderExpr

namespace Opcode

/-- Position of the result among the operands. A type stands in front of a result at position 1. -/
def resultPosition? : Opcode → Option Nat
  | .nop | .debugName | .debugMemberName | .memoryModel | .entryPoint | .executionMode
  | .capability | .functionEnd | .store | .decorate | .ret => none
  | .extInstImport | .typeVoid | .typeBool | .typeInt | .typeFloat | .typeVector | .typeMatrix
  | .typeStruct | .typePointer | .typeFunction | .label => some 0
  | _ => some 1

/-- Instructions outside of types, constants, variables and computations. -/
def isFrame : Opcode → Bool
  | .capability | .extInstImport | .memoryModel | .entryPoint | .executionMode | .debugName
  | .debugMemberName | .label | .ret | .functionEnd => true
  | _ => false

/-- Instructions that give a constant. -/
def isConstant : Opcode → Bool
  | .constantTrue | .constantFalse | .constant | .constantComposite => true
  | _ => false

end Opcode

namespace Instruction

/-- The id that an instruction gives a meaning to. -/
def result? (i : Instruction) : Option Id := i.op.resultPosition?.bind (i.operands[·]?)

/-- The type of the result, which types, labels and the like do not have. -/
def resultType? (i : Instruction) : Option Id :=
  if i.op.resultPosition? = some 1 then i.operands[0]? else none

end Instruction

/-- Declaration of a component type. -/
def ScalarType.declaration (s : ScalarType) (t : Id) : Instruction :=
  match s with
  | .bool => ⟨.typeBool, [t]⟩
  | .float => ⟨.typeFloat, [t, 32]⟩
  | .double => ⟨.typeFloat, [t, 64]⟩
  | .int => ⟨.typeInt, [t, 32, 1]⟩
  | .uint => ⟨.typeInt, [t, 32, 0]⟩

/-- Constant of a component type. -/
def Scalar.definition (x : Scalar) (t id : Id) : Instruction :=
  match x with
  | .bool true => ⟨.constantTrue, [t, id]⟩
  | .bool false => ⟨.constantFalse, [t, id]⟩
  | x => ⟨.constant, t :: id :: x.words⟩

namespace Typing

/-- What an opcode asks of components. Integers are signed or not unless they must be unsigned, and
    floating components may have to be of a width. -/
inductive Kind
  | boolean | integer | unsigned | floating | float (width : UInt32)
  deriving DecidableEq

section

variable (known : List Instruction)

def HasType (id t : Id) : Prop := ∃ i ∈ known, i.result? = some id ∧ i.resultType? = some t

def IsConstant (id : Id) : Prop := ∃ i ∈ known, i.result? = some id ∧ i.op.isConstant

/-- A type that a value can have. -/
def IsDataType (t : Id) : Prop :=
  ∃ i ∈ known, i.result? = some t ∧
    i.op ∈ [.typeBool, .typeInt, .typeFloat, .typeVector, .typeMatrix, .typeStruct]

def IsScalar : Kind → Id → Prop
  | .boolean, t => ⟨.typeBool, [t]⟩ ∈ known
  | .integer, t => ∃ sign, ⟨.typeInt, [t, 32, sign]⟩ ∈ known
  | .unsigned, t => ⟨.typeInt, [t, 32, 0]⟩ ∈ known
  | .floating, t => ∃ width, ⟨.typeFloat, [t, width]⟩ ∈ known
  | .float width, t => ⟨.typeFloat, [t, width]⟩ ∈ known

/-- A scalar type, or a vector type of that many components. -/
inductive Lanes (k : Kind) : Id → Nat → Prop
  | scalar {t : Id} (kind : IsScalar known k t) : Lanes k t 1
  | vector {t c n : Id} (declared : ⟨.typeVector, [t, c, n]⟩ ∈ known) (kind : IsScalar known k c) :
    Lanes k t n.toNat

/-- Types of the parts that a value of a composite type is made of. -/
inductive Parts : Id → List Id → Prop
  | vector {t c n : Id} (declared : ⟨.typeVector, [t, c, n]⟩ ∈ known) :
    Parts t (List.replicate n.toNat c)
  | matrix {t c n : Id} (declared : ⟨.typeMatrix, [t, c, n]⟩ ∈ known) :
    Parts t (List.replicate n.toNat c)
  | struct {t : Id} {members : List Id} (declared : ⟨.typeStruct, t :: members⟩ ∈ known) :
    Parts t members

/-- Indexes lead from a type into its parts and on into theirs. -/
inductive Path : Id → List Nat → Id → Prop
  | nil {t : Id} : Path t [] t
  | cons {t u v : Id} {parts : List Id} {i : Nat} {indexes : List Nat} (composite : Parts known t parts)
    (part : parts[i]? = some u) (rest : Path u indexes v) : Path t (i :: indexes) v

/-- A signed integer constant that indexes members. -/
def IsIndex (id : Id) (index : Nat) : Prop :=
  ∃ t word : UInt32, ⟨.typeInt, [t, 32, 1]⟩ ∈ known ∧ ⟨.constant, [t, id, word]⟩ ∈ known ∧
    word.toNat = index

/-- Number of words of a constant of a scalar type. -/
inductive LiteralWords : Id → Nat → Prop
  | int {t sign : Id} (declared : ⟨.typeInt, [t, 32, sign]⟩ ∈ known) : LiteralWords t 1
  | float {t width : Id} (declared : ⟨.typeFloat, [t, width]⟩ ∈ known) :
    LiteralWords t (width.toNat / 32)

end

end Typing

namespace Opcode

open Typing

/-- Operations whose operands have the type of the result, and the number of these operands. -/
def uniform? : Opcode → Option (Kind × Nat)
  | .iAdd | .iSub | .iMul | .sDiv | .sMod | .bitwiseOr | .bitwiseXor | .bitwiseAnd =>
    some (.integer, 2)
  | .uDiv | .uMod => some (.unsigned, 2)
  | .fAdd | .fSub | .fMul | .fDiv | .fMod => some (.floating, 2)
  | .sNegate => some (.integer, 1)
  | .fNegate => some (.floating, 1)
  | .logicalEqual | .logicalNotEqual | .logicalOr | .logicalAnd => some (.boolean, 2)
  | _ => none

/-- Operations that give a boolean for each component of operands of one type. -/
def comparison? : Opcode → Option (Kind × Nat)
  | .iEqual | .iNotEqual | .uGreaterThan | .sGreaterThan | .uGreaterThanEqual | .sGreaterThanEqual
  | .uLessThan | .sLessThan | .uLessThanEqual | .sLessThanEqual => some (.integer, 2)
  | .fOrdEqual | .fUnordNotEqual | .fOrdLessThan | .fOrdGreaterThan | .fOrdLessThanEqual
  | .fOrdGreaterThanEqual => some (.floating, 2)
  | .isNan | .isInf => some (.floating, 1)
  | _ => none

/-- Kinds that a conversion goes between. -/
def conversion? : Opcode → Option (Kind × Kind)
  | .convertFToU => some (.floating, .unsigned)
  | .convertFToS => some (.floating, .integer)
  | .convertSToF | .convertUToF => some (.integer, .floating)
  | .bitcast => some (.integer, .integer)
  | _ => none

def isShift : Opcode → Bool
  | .shiftRightLogical | .shiftRightArithmetic | .shiftLeftLogical => true
  | _ => false

end Opcode

/-- Extended instructions whose operands have the type of the result, and the number of these
    operands. Some are only defined for single precision. -/
def ExtendedOp.uniform? : ExtendedOp → Option (Typing.Kind × Nat)
  | .round | .roundEven | .trunc | .fAbs | .fSign | .floor | .ceil | .fract | .sqrt | .inverseSqrt
  | .normalize => some (.floating, 1)
  | .sAbs | .sSign => some (.integer, 1)
  | .radians | .degrees | .sin | .cos | .tan | .asin | .acos | .atan | .exp | .log | .exp2
  | .log2 => some (.float 32, 1)
  | .atan2 | .pow => some (.float 32, 2)
  | .fMin | .fMax | .step => some (.floating, 2)
  | .uMin | .sMin | .uMax | .sMax => some (.integer, 2)
  | .fClamp | .fMix | .smoothStep => some (.floating, 3)
  | .uClamp | .sClamp => some (.integer, 3)
  | .length | .distance | .cross => none

namespace Typing

/-- Name of the only set of extended instructions. -/
def extendedSetName : List UInt32 := LiteralString.encode "GLSL.std.450"

/-- An extended instruction fits the types of its result and its operands. -/
inductive ExtendedRule (known : List Instruction) : ExtendedOp → Id → List Id → Prop
  | uniform {op : ExtendedOp} {k : Kind} {n : Nat} {t : Id} {operands : List Id}
    (form : op.uniform? = some (k, operands.length)) (lanes : Lanes known k t n)
    (same : ∀ x ∈ operands, HasType known x t) : ExtendedRule known op t operands
  | length {t u x : Id} (scalar : IsScalar known .floating t)
    (lanes : u = t ∨ ∃ n, ⟨.typeVector, [u, t, n]⟩ ∈ known) (operand : HasType known x u) :
    ExtendedRule known .length t [x]
  | distance {t u x y : Id} (scalar : IsScalar known .floating t)
    (lanes : u = t ∨ ∃ n, ⟨.typeVector, [u, t, n]⟩ ∈ known) (left : HasType known x u)
    (right : HasType known y u) : ExtendedRule known .distance t [x, y]
  | cross {t c x y : Id} (three : ⟨.typeVector, [t, c, 3]⟩ ∈ known)
    (scalar : IsScalar known .floating c) (left : HasType known x t) (right : HasType known y t) :
    ExtendedRule known .cross t [x, y]

/-- An instruction fits what the instructions in front of it declare: they declare the types and
    give the operands, and types are compared by their ids. Rules for modules as this compiler makes
    them suffice: a vector is only made from single components, and there is no flow of control. -/
inductive Rule (known : List Instruction) : Instruction → Prop
  | frame {op : Opcode} {operands : List UInt32} (frame : op.isFrame) : Rule known ⟨op, operands⟩
  | typeVoid {t : Id} : Rule known ⟨.typeVoid, [t]⟩
  | typeScalar {s : ScalarType} {t : Id} : Rule known (s.declaration t)
  | typeVector {t c n : Id} {k : Kind} (component : IsScalar known k c) (least : 2 ≤ n.toNat)
    (greatest : n.toNat ≤ 4) : Rule known ⟨.typeVector, [t, c, n]⟩
  | typeMatrix {t c n u m : Id} (column : ⟨.typeVector, [c, u, m]⟩ ∈ known)
    (least : 2 ≤ n.toNat) (greatest : n.toNat ≤ 4) : Rule known ⟨.typeMatrix, [t, c, n]⟩
  | typeStruct {t : Id} {members : List Id} (data : ∀ m ∈ members, IsDataType known m) :
    Rule known ⟨.typeStruct, t :: members⟩
  | typePointer {t u : Id} {storage : StorageClass} (pointee : IsDataType known u) :
    Rule known ⟨.typePointer, [t, storage.number, u]⟩
  | typeFunction {t result : Id} (nothing : ⟨.typeVoid, [result]⟩ ∈ known) :
    Rule known ⟨.typeFunction, [t, result]⟩
  | constantBool {op : Opcode} {t id : Id} (truth : op = .constantTrue ∨ op = .constantFalse)
    (boolean : IsScalar known .boolean t) : Rule known ⟨op, [t, id]⟩
  | constant {t id : Id} {words : List UInt32} (literal : LiteralWords known t words.length) :
    Rule known ⟨.constant, t :: id :: words⟩
  | constantComposite {t id : Id} {types parts : List Id} (composite : Parts known t types)
    (filled : List.Forall₂ (HasType known) parts types)
    (constants : ∀ x ∈ parts, IsConstant known x) :
    Rule known ⟨.constantComposite, t :: id :: parts⟩
  | function {t id type : Id} (declared : ⟨.typeFunction, [type, t]⟩ ∈ known) :
    Rule known ⟨.function, [t, id, 0, type]⟩
  | var {t id storage u : Id} {initial : List Id}
    (pointer : ⟨.typePointer, [t, storage, u]⟩ ∈ known) (one : initial.length ≤ 1)
    (starts : ∀ x ∈ initial, HasType known x u ∧ IsConstant known x) :
    Rule known ⟨.var, t :: id :: storage :: initial⟩
  | load {t id p pt storage : Id} (pointer : ⟨.typePointer, [pt, storage, t]⟩ ∈ known)
    (operand : HasType known p pt) : Rule known ⟨.load, [t, id, p]⟩
  | store {p x pt storage u : Id} (pointer : ⟨.typePointer, [pt, storage, u]⟩ ∈ known)
    (place : HasType known p pt) (value : HasType known x u) : Rule known ⟨.store, [p, x]⟩
  | accessChain {t id p pt storage u v : Id} {indexes : List Id} {path : List Nat}
    (base : ⟨.typePointer, [pt, storage, u]⟩ ∈ known) (operand : HasType known p pt)
    (constants : List.Forall₂ (IsIndex known) indexes path) (inside : Path known u path v)
    (pointer : ⟨.typePointer, [t, storage, v]⟩ ∈ known) :
    Rule known ⟨.accessChain, t :: id :: p :: indexes⟩
  | compositeConstruct {t id : Id} {types parts : List Id} (composite : Parts known t types)
    (filled : List.Forall₂ (HasType known) parts types) :
    Rule known ⟨.compositeConstruct, t :: id :: parts⟩
  | compositeExtract {t id x u : Id} {indexes : List UInt32} (operand : HasType known x u)
    (inside : Path known u (indexes.map (·.toNat)) t) :
    Rule known ⟨.compositeExtract, t :: id :: x :: indexes⟩
  | compositeInsert {t id x y u : Id} {indexes : List UInt32} (part : HasType known x u)
    (whole : HasType known y t) (inside : Path known t (indexes.map (·.toNat)) u) :
    Rule known ⟨.compositeInsert, t :: id :: x :: y :: indexes⟩
  | vectorShuffle {t id c n x xt m y yt k : Id} {indexes : List UInt32}
    (result : ⟨.typeVector, [t, c, n]⟩ ∈ known) (count : indexes.length = n.toNat)
    (left : HasType known x xt) (left_vector : ⟨.typeVector, [xt, c, m]⟩ ∈ known)
    (right : HasType known y yt) (right_vector : ⟨.typeVector, [yt, c, k]⟩ ∈ known)
    (inside : ∀ i ∈ indexes, i.toNat < m.toNat + k.toNat) :
    Rule known ⟨.vectorShuffle, t :: id :: x :: y :: indexes⟩
  | uniform {op : Opcode} {k : Kind} {n : Nat} {t id : Id} {operands : List Id}
    (form : op.uniform? = some (k, operands.length)) (lanes : Lanes known k t n)
    (same : ∀ x ∈ operands, HasType known x t) : Rule known ⟨op, t :: id :: operands⟩
  | comparison {op : Opcode} {k : Kind} {n : Nat} {t id u : Id} {operands : List Id}
    (form : op.comparison? = some (k, operands.length)) (result : Lanes known .boolean t n)
    (lanes : Lanes known k u n) (same : ∀ x ∈ operands, HasType known x u) :
    Rule known ⟨op, t :: id :: operands⟩
  | conversion {op : Opcode} {k k' : Kind} {n : Nat} {t id x u : Id}
    (form : op.conversion? = some (k, k')) (result : Lanes known k' t n)
    (lanes : Lanes known k u n) (operand : HasType known x u) (other : u ≠ t) :
    Rule known ⟨op, [t, id, x]⟩
  | fConvert {n : Nat} {t id x u width width' : Id} (result : Lanes known (.float width') t n)
    (lanes : Lanes known (.float width) u n) (operand : HasType known x u)
    (other : width ≠ width') : Rule known ⟨.fConvert, [t, id, x]⟩
  | shift {op : Opcode} {n : Nat} {t id x y u : Id} (form : op.isShift)
    (result : Lanes known .integer t n) (base : HasType known x t)
    (lanes : Lanes known .integer u n) (amount : HasType known y u) :
    Rule known ⟨op, [t, id, x, y]⟩
  | select {k : Kind} {n : Nat} {t id x u y z : Id} (result : Lanes known k t n)
    (condition : HasType known x u) (lanes : Lanes known .boolean u n) (left : HasType known y t)
    (right : HasType known z t) : Rule known ⟨.select, [t, id, x, y, z]⟩
  | vectorTimesScalar {t id c n x y : Id} (vector : ⟨.typeVector, [t, c, n]⟩ ∈ known)
    (floating : IsScalar known .floating c) (left : HasType known x t)
    (right : HasType known y c) : Rule known ⟨.vectorTimesScalar, [t, id, x, y]⟩
  | matrixTimesScalar {t id c n d m x y : Id} (matrix : ⟨.typeMatrix, [t, c, n]⟩ ∈ known)
    (column : ⟨.typeVector, [c, d, m]⟩ ∈ known) (floating : IsScalar known .floating d)
    (left : HasType known x t) (right : HasType known y d) :
    Rule known ⟨.matrixTimesScalar, [t, id, x, y]⟩
  | vectorTimesMatrix {t id d n c m x xt y yt : Id} (result : ⟨.typeVector, [t, d, n]⟩ ∈ known)
    (floating : IsScalar known .floating d) (left : HasType known x xt)
    (vector : ⟨.typeVector, [xt, d, m]⟩ ∈ known) (right : HasType known y yt)
    (matrix : ⟨.typeMatrix, [yt, c, n]⟩ ∈ known) (column : ⟨.typeVector, [c, d, m]⟩ ∈ known) :
    Rule known ⟨.vectorTimesMatrix, [t, id, x, y]⟩
  | matrixTimesVector {t id d n c m x xt y yt : Id} (result : ⟨.typeVector, [t, d, m]⟩ ∈ known)
    (floating : IsScalar known .floating d) (left : HasType known x xt)
    (matrix : ⟨.typeMatrix, [xt, c, n]⟩ ∈ known) (column : ⟨.typeVector, [c, d, m]⟩ ∈ known)
    (right : HasType known y yt) (vector : ⟨.typeVector, [yt, d, n]⟩ ∈ known) :
    Rule known ⟨.matrixTimesVector, [t, id, x, y]⟩
  | matrixTimesMatrix {t id d n c m k x xt y yt e : Id}
    (result : ⟨.typeMatrix, [t, c, n]⟩ ∈ known) (column : ⟨.typeVector, [c, d, m]⟩ ∈ known)
    (floating : IsScalar known .floating d) (left : HasType known x xt)
    (left_matrix : ⟨.typeMatrix, [xt, c, k]⟩ ∈ known) (right : HasType known y yt)
    (right_matrix : ⟨.typeMatrix, [yt, e, n]⟩ ∈ known)
    (right_column : ⟨.typeVector, [e, d, k]⟩ ∈ known) :
    Rule known ⟨.matrixTimesMatrix, [t, id, x, y]⟩
  | dot {t id n x y u : Id} (vector : ⟨.typeVector, [u, t, n]⟩ ∈ known)
    (floating : IsScalar known .floating t) (left : HasType known x u)
    (right : HasType known y u) : Rule known ⟨.dot, [t, id, x, y]⟩
  | quantifier {op : Opcode} {t id c n x u : Id} (form : op = .anyTrue ∨ op = .allTrue)
    (boolean : IsScalar known .boolean t) (vector : ⟨.typeVector, [u, c, n]⟩ ∈ known)
    (component : IsScalar known .boolean c) (operand : HasType known x u) :
    Rule known ⟨op, [t, id, x]⟩
  | extInst {t id set number : Id} {operands : List Id} {op : ExtendedOp}
    (imported : ⟨.extInstImport, set :: extendedSetName⟩ ∈ known)
    (named : number.toNat = op.number) (typed : ExtendedRule known op t operands) :
    Rule known ⟨.extInst, t :: id :: set :: number :: operands⟩

/-- Instructions that are well typed one after the other behind those known before, each giving a
    meaning to an id that had none. -/
def Follows (known : List Instruction) : List Instruction → Prop
  | [] => True
  | i :: rest => Rule known i ∧ (∀ j ∈ known, ∀ r, i.result? = some r → j.result? ≠ some r) ∧
      Follows (known ++ [i]) rest

end Typing

/-- Instructions of a module that are well typed from the first one on. -/
def Module.WellTyped (m : Module) : Prop := Typing.Follows [] m.instructions

/-- Only matrices of floating components exist. -/
def Module.FloatingMatrices (m : Module) : Prop :=
  ∀ t c n, ⟨.typeMatrix, [t, c, n]⟩ ∈ m.instructions → ∀ u k,
    ⟨.typeVector, [c, u, k]⟩ ∈ m.instructions → Typing.IsScalar m.instructions .floating u

end ShaderExpr
