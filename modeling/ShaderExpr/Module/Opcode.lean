namespace ShaderExpr

/-- The operations that modules of this compiler are read and written with. -/
inductive Opcode
  | nop | debugName | debugMemberName | extInstImport | extInst | memoryModel | entryPoint
  | executionMode | capability | typeVoid | typeBool | typeInt | typeFloat | typeVector | typeMatrix
  | typeStruct | typePointer | typeFunction | constantTrue | constantFalse | constant
  | constantComposite | function | functionParameter | functionEnd | var | load | store
  | accessChain | decorate | vectorShuffle | compositeConstruct | compositeExtract
  | compositeInsert | convertFToU | convertFToS | convertSToF | convertUToF | fConvert | bitcast
  | sNegate | fNegate | iAdd | fAdd | iSub | fSub | iMul | fMul | uDiv | sDiv | fDiv | uMod
  | sMod | fMod | vectorTimesScalar | matrixTimesScalar | vectorTimesMatrix | matrixTimesVector
  | matrixTimesMatrix | dot | anyTrue | allTrue | isNan | isInf | logicalEqual | logicalNotEqual
  | logicalOr | logicalAnd | select | iEqual | iNotEqual | uGreaterThan | sGreaterThan
  | uGreaterThanEqual | sGreaterThanEqual | uLessThan | sLessThan | uLessThanEqual
  | sLessThanEqual | fOrdEqual | fUnordNotEqual | fOrdLessThan | fOrdGreaterThan
  | fOrdLessThanEqual | fOrdGreaterThanEqual | shiftRightLogical | shiftRightArithmetic
  | shiftLeftLogical | bitwiseOr | bitwiseXor | bitwiseAnd | label | ret
  deriving DecidableEq, Repr

namespace Opcode

def all : List Opcode := [
  .nop, .debugName, .debugMemberName, .extInstImport, .extInst, .memoryModel, .entryPoint,
  .executionMode, .capability, .typeVoid, .typeBool, .typeInt, .typeFloat, .typeVector,
  .typeMatrix, .typeStruct, .typePointer, .typeFunction, .constantTrue, .constantFalse, .constant,
  .constantComposite, .function, .functionParameter, .functionEnd, .var, .load, .store,
  .accessChain, .decorate, .vectorShuffle, .compositeConstruct, .compositeExtract,
  .compositeInsert, .convertFToU, .convertFToS, .convertSToF, .convertUToF, .fConvert, .bitcast,
  .sNegate, .fNegate, .iAdd, .fAdd, .iSub, .fSub, .iMul, .fMul, .uDiv, .sDiv, .fDiv, .uMod, .sMod,
  .fMod, .vectorTimesScalar, .matrixTimesScalar, .vectorTimesMatrix, .matrixTimesVector,
  .matrixTimesMatrix, .dot, .anyTrue, .allTrue, .isNan, .isInf, .logicalEqual, .logicalNotEqual,
  .logicalOr, .logicalAnd, .select, .iEqual, .iNotEqual, .uGreaterThan, .sGreaterThan,
  .uGreaterThanEqual, .sGreaterThanEqual, .uLessThan, .sLessThan, .uLessThanEqual, .sLessThanEqual,
  .fOrdEqual, .fUnordNotEqual, .fOrdLessThan, .fOrdGreaterThan, .fOrdLessThanEqual,
  .fOrdGreaterThanEqual, .shiftRightLogical, .shiftRightArithmetic, .shiftLeftLogical, .bitwiseOr,
  .bitwiseXor, .bitwiseAnd, .label, .ret]

/-- Name without the "Op" that a listing puts in front. -/
def name : Opcode → String
  | .nop => "Nop"
  | .debugName => "Name"
  | .debugMemberName => "MemberName"
  | .extInstImport => "ExtInstImport"
  | .extInst => "ExtInst"
  | .memoryModel => "MemoryModel"
  | .entryPoint => "EntryPoint"
  | .executionMode => "ExecutionMode"
  | .capability => "Capability"
  | .typeVoid => "TypeVoid"
  | .typeBool => "TypeBool"
  | .typeInt => "TypeInt"
  | .typeFloat => "TypeFloat"
  | .typeVector => "TypeVector"
  | .typeMatrix => "TypeMatrix"
  | .typeStruct => "TypeStruct"
  | .typePointer => "TypePointer"
  | .typeFunction => "TypeFunction"
  | .constantTrue => "ConstantTrue"
  | .constantFalse => "ConstantFalse"
  | .constant => "Constant"
  | .constantComposite => "ConstantComposite"
  | .function => "Function"
  | .functionParameter => "FunctionParameter"
  | .functionEnd => "FunctionEnd"
  | .var => "Variable"
  | .load => "Load"
  | .store => "Store"
  | .accessChain => "AccessChain"
  | .decorate => "Decorate"
  | .vectorShuffle => "VectorShuffle"
  | .compositeConstruct => "CompositeConstruct"
  | .compositeExtract => "CompositeExtract"
  | .compositeInsert => "CompositeInsert"
  | .convertFToU => "ConvertFToU"
  | .convertFToS => "ConvertFToS"
  | .convertSToF => "ConvertSToF"
  | .convertUToF => "ConvertUToF"
  | .fConvert => "FConvert"
  | .bitcast => "Bitcast"
  | .sNegate => "SNegate"
  | .fNegate => "FNegate"
  | .iAdd => "IAdd"
  | .fAdd => "FAdd"
  | .iSub => "ISub"
  | .fSub => "FSub"
  | .iMul => "IMul"
  | .fMul => "FMul"
  | .uDiv => "UDiv"
  | .sDiv => "SDiv"
  | .fDiv => "FDiv"
  | .uMod => "UMod"
  | .sMod => "SMod"
  | .fMod => "FMod"
  | .vectorTimesScalar => "VectorTimesScalar"
  | .matrixTimesScalar => "MatrixTimesScalar"
  | .vectorTimesMatrix => "VectorTimesMatrix"
  | .matrixTimesVector => "MatrixTimesVector"
  | .matrixTimesMatrix => "MatrixTimesMatrix"
  | .dot => "Dot"
  | .anyTrue => "Any"
  | .allTrue => "All"
  | .isNan => "IsNan"
  | .isInf => "IsInf"
  | .logicalEqual => "LogicalEqual"
  | .logicalNotEqual => "LogicalNotEqual"
  | .logicalOr => "LogicalOr"
  | .logicalAnd => "LogicalAnd"
  | .select => "Select"
  | .iEqual => "IEqual"
  | .iNotEqual => "INotEqual"
  | .uGreaterThan => "UGreaterThan"
  | .sGreaterThan => "SGreaterThan"
  | .uGreaterThanEqual => "UGreaterThanEqual"
  | .sGreaterThanEqual => "SGreaterThanEqual"
  | .uLessThan => "ULessThan"
  | .sLessThan => "SLessThan"
  | .uLessThanEqual => "ULessThanEqual"
  | .sLessThanEqual => "SLessThanEqual"
  | .fOrdEqual => "FOrdEqual"
  | .fUnordNotEqual => "FUnordNotEqual"
  | .fOrdLessThan => "FOrdLessThan"
  | .fOrdGreaterThan => "FOrdGreaterThan"
  | .fOrdLessThanEqual => "FOrdLessThanEqual"
  | .fOrdGreaterThanEqual => "FOrdGreaterThanEqual"
  | .shiftRightLogical => "ShiftRightLogical"
  | .shiftRightArithmetic => "ShiftRightArithmetic"
  | .shiftLeftLogical => "ShiftLeftLogical"
  | .bitwiseOr => "BitwiseOr"
  | .bitwiseXor => "BitwiseXor"
  | .bitwiseAnd => "BitwiseAnd"
  | .label => "Label"
  | .ret => "Return"

def number : Opcode → Nat
  | .nop => 0
  | .debugName => 5
  | .debugMemberName => 6
  | .extInstImport => 11
  | .extInst => 12
  | .memoryModel => 14
  | .entryPoint => 15
  | .executionMode => 16
  | .capability => 17
  | .typeVoid => 19
  | .typeBool => 20
  | .typeInt => 21
  | .typeFloat => 22
  | .typeVector => 23
  | .typeMatrix => 24
  | .typeStruct => 30
  | .typePointer => 32
  | .typeFunction => 33
  | .constantTrue => 41
  | .constantFalse => 42
  | .constant => 43
  | .constantComposite => 44
  | .function => 54
  | .functionParameter => 55
  | .functionEnd => 56
  | .var => 59
  | .load => 61
  | .store => 62
  | .accessChain => 65
  | .decorate => 71
  | .vectorShuffle => 79
  | .compositeConstruct => 80
  | .compositeExtract => 81
  | .compositeInsert => 82
  | .convertFToU => 109
  | .convertFToS => 110
  | .convertSToF => 111
  | .convertUToF => 112
  | .fConvert => 115
  | .bitcast => 124
  | .sNegate => 126
  | .fNegate => 127
  | .iAdd => 128
  | .fAdd => 129
  | .iSub => 130
  | .fSub => 131
  | .iMul => 132
  | .fMul => 133
  | .uDiv => 134
  | .sDiv => 135
  | .fDiv => 136
  | .uMod => 137
  | .sMod => 139
  | .fMod => 141
  | .vectorTimesScalar => 142
  | .matrixTimesScalar => 143
  | .vectorTimesMatrix => 144
  | .matrixTimesVector => 145
  | .matrixTimesMatrix => 146
  | .dot => 148
  | .anyTrue => 154
  | .allTrue => 155
  | .isNan => 156
  | .isInf => 157
  | .logicalEqual => 164
  | .logicalNotEqual => 165
  | .logicalOr => 166
  | .logicalAnd => 167
  | .select => 169
  | .iEqual => 170
  | .iNotEqual => 171
  | .uGreaterThan => 172
  | .sGreaterThan => 173
  | .uGreaterThanEqual => 174
  | .sGreaterThanEqual => 175
  | .uLessThan => 176
  | .sLessThan => 177
  | .uLessThanEqual => 178
  | .sLessThanEqual => 179
  | .fOrdEqual => 180
  | .fUnordNotEqual => 183
  | .fOrdLessThan => 184
  | .fOrdGreaterThan => 186
  | .fOrdLessThanEqual => 188
  | .fOrdGreaterThanEqual => 190
  | .shiftRightLogical => 194
  | .shiftRightArithmetic => 195
  | .shiftLeftLogical => 196
  | .bitwiseOr => 197
  | .bitwiseXor => 198
  | .bitwiseAnd => 199
  | .label => 248
  | .ret => 253

def ofNumber? (n : Nat) : Option Opcode := all.find? fun op => op.number = n

end Opcode

/-- Instructions of the GLSL.std.450 extended set. -/
inductive ExtendedOp
  | round | roundEven | trunc | fAbs | sAbs | fSign | sSign | floor | ceil | fract | radians
  | degrees | sin | cos | tan | asin | acos | atan | atan2 | pow | exp | log | exp2 | log2
  | sqrt | inverseSqrt | fMin | uMin | sMin | fMax | uMax | sMax | fClamp | uClamp | sClamp
  | fMix | step | smoothStep | length | distance | cross | normalize
  deriving DecidableEq, Repr

def ExtendedOp.number : ExtendedOp → Nat
  | .round => 1
  | .roundEven => 2
  | .trunc => 3
  | .fAbs => 4
  | .sAbs => 5
  | .fSign => 6
  | .sSign => 7
  | .floor => 8
  | .ceil => 9
  | .fract => 10
  | .radians => 11
  | .degrees => 12
  | .sin => 13
  | .cos => 14
  | .tan => 15
  | .asin => 16
  | .acos => 17
  | .atan => 18
  | .atan2 => 25
  | .pow => 26
  | .exp => 27
  | .log => 28
  | .exp2 => 29
  | .log2 => 30
  | .sqrt => 31
  | .inverseSqrt => 32
  | .fMin => 37
  | .uMin => 38
  | .sMin => 39
  | .fMax => 40
  | .uMax => 41
  | .sMax => 42
  | .fClamp => 43
  | .uClamp => 44
  | .sClamp => 45
  | .fMix => 46
  | .step => 48
  | .smoothStep => 49
  | .length => 66
  | .distance => 67
  | .cross => 68
  | .normalize => 69

end ShaderExpr
