import ShaderExpr.Token.Literal
import ShaderExpr.Variable

namespace ShaderExpr

/-- Kinds of problems, by which a report numbers them. -/
inductive ProblemCode
  | lexer | syntactic | typeMismatch | argumentCount | uniqueness | declaration | unsupported
  | constant
  deriving DecidableEq, Repr

def ProblemCode.text : ProblemCode → String
  | lexer => "E0002"
  | syntactic => "E0003"
  | typeMismatch => "E0004"
  | argumentCount => "E0005"
  | uniqueness => "E0006"
  | declaration => "E0007"
  | unsupported => "E0008"
  | constant => "E0009"

inductive Problem
  -- characters that form no token
  | unexpected (c : Char)
  | unexpectedEnd
  | literal (flaw : LiteralFlaw)
  -- tokens out of place
  | expectedEnd (found : Token.Kind)
  | expectedStructBody
  | expectedMemberType
  | expectedMemberName
  | expectedMemberEnd
  | expectedStructEnd
  | expectedType
  | expectedVariableName
  | expectedDeclarationEnd
  | secondStorage
  | duplicateQualifier (word : String)
  | constantStorage (storage : Storage)
  | notAssignable
  | expectedField
  | noFields (ty : Ty)
  | swizzleLetter (letter : Char) (letters : String)
  | swizzleTooLong
  | expectedClosing
  | notExpression (found : Token.Kind)
  | expectedExpression
  | expectedConstruction (ty : Ty)
  | expectedArgumentsEnd
  | expectedCall
  -- types that do not fit
  | memberType (ty : Ty)
  | voidVariable (name : String)
  | initializerType (declared initializer : Ty)
  | operands (error : OperandError)
  | assignmentType (value target : Ty)
  | negatedShape (ty : Ty)
  | negatedBoolean (ty : Ty)
  | swizzleRange (letter : Char) (ty : Ty)
  | constructorArgument (argument : Ty)
  | matrixArgument (argument ty : Ty)
  | noOverloadForTypes (count : Nat)
  -- too many or too few arguments
  | tooManyArguments (needed : Nat)
  | missingComponents (count : Nat)
  | noOverloadForCount (count : Nat)
  -- names and meanings
  | ambiguousCall
  | duplicateMember (name : String)
  | redefinedStruct (name : String)
  | redefinedVariable (name : String)
  | uninitializable (storage : Storage)
  | noMember (ty : Ty) (name : String)
  | unknownFunction (name : String)
  | unknownVariable (name : String)
  -- known, but not supported
  | inoutQualifier
  | variableInitializer (name : String)
  | unaryOperator (found : Token.Kind)
  | subscript
  | postfixOperator (found : Token.Kind)
  | lengthCall
  -- constants
  | assignedReadOnly (name : String)
  | constantInitializer (name : String)
  | uninitializedConstant (name : String)
  deriving DecidableEq, Repr

namespace Problem

def code : Problem → ProblemCode
  | unexpected _ | unexpectedEnd | literal _ => .lexer
  | expectedEnd _ | expectedStructBody | expectedMemberType | expectedMemberName
  | expectedMemberEnd | expectedStructEnd | expectedType | expectedVariableName
  | expectedDeclarationEnd | secondStorage | duplicateQualifier _ | constantStorage _
  | notAssignable | expectedField | noFields _ | swizzleLetter .. | swizzleTooLong
  | expectedClosing | notExpression _ | expectedExpression | expectedConstruction _
  | expectedArgumentsEnd | expectedCall => .syntactic
  | memberType _ | voidVariable _ | initializerType .. | operands _ | assignmentType ..
  | negatedShape _ | negatedBoolean _ | swizzleRange .. | constructorArgument _
  | matrixArgument .. | noOverloadForTypes _ => .typeMismatch
  | tooManyArguments _ | missingComponents _ | noOverloadForCount _ => .argumentCount
  | ambiguousCall => .uniqueness
  | duplicateMember _ | redefinedStruct _ | redefinedVariable _ | uninitializable _
  | noMember .. | unknownFunction _ | unknownVariable _ => .declaration
  | inoutQualifier | variableInitializer _ | unaryOperator _ | subscript | postfixOperator _
  | lengthCall => .unsupported
  | assignedReadOnly _ | constantInitializer _ | uninitializedConstant _ => .constant

def quoted (text : String) : String := "\"" ++ text ++ "\""

def message : Problem → String
  | unexpected c => "unexpected " ++ c.toString
  | unexpectedEnd => "unexpected end of input"
  | literal flaw => flaw.message
  | expectedEnd found => "Expected end of input, but found " ++ found.text ++ "."
  | expectedStructBody => "Expected opening " ++ quoted "\x7b" ++ " after struct declaration."
  | expectedMemberType => "Expected a type for struct member."
  | expectedMemberName => "Expected a name for struct member."
  | expectedMemberEnd => "Expected semicolon after struct member declaration."
  | expectedStructEnd => "Expected closing " ++ quoted "\x7d" ++ " after struct declaration."
  | expectedType => "Expected a type."
  | expectedVariableName => "Expected a variable name."
  | expectedDeclarationEnd => "Expected semicolon at end of declaration."
  | secondStorage => "Only one storage qualifier is allowed."
  | duplicateQualifier word => "Duplicate qualifier " ++ quoted word ++ "."
  | constantStorage storage => "Constants cannot have " ++ storage.name ++ " storage."
  | notAssignable => "Assignment requires l-value."
  | expectedField => "Expected an identifier to select a field."
  | noFields ty => "Type " ++ ty.text ++ " has no fields to select."
  | swizzleLetter letter letters =>
    "Character '" ++ letter.toString ++ "' is not valid for swizzle. Must be one of " ++
      quoted letters ++ "."
  | swizzleTooLong => "Too many swizzle options. A maximum of 4 characters are allowed."
  | expectedClosing => "Expected closing " ++ quoted ")" ++ "."
  | notExpression found => "Expected an expression, but found " ++ found.text ++ "."
  | expectedExpression => "Expected an expression."
  | expectedConstruction ty =>
    "Expected opening " ++ quoted "(" ++ " when calling constructor of " ++ ty.text ++ "."
  | expectedArgumentsEnd => "Expected closing " ++ quoted ")" ++ " after arguments."
  | expectedCall => "Expected opening " ++ quoted "(" ++ " when calling function."
  | memberType ty => "Struct members cannot have type " ++ ty.text ++ "."
  | voidVariable name => "Variable " ++ quoted name ++ " cannot have type void."
  | initializerType declared initializer =>
    "Cannot initialize variable of type " ++ declared.text ++ " with value of type " ++
      initializer.text ++ "."
  | operands error => error.message
  | assignmentType value target =>
    "Cannot assign value of type " ++ value.text ++ " to variable of type " ++ target.text ++ "."
  | negatedShape ty =>
    "Negation only works on scalars, vectors and matrices, not on " ++ ty.text ++ "."
  | negatedBoolean ty => "Negation does not work on boolean types like " ++ ty.text ++ "."
  | swizzleRange letter ty =>
    "Swizzle index '" ++ letter.toString ++ "' not allowed for type " ++ ty.text ++ "."
  | constructorArgument argument =>
    "Invalid type " ++ argument.text ++ " for builtin constructor."
  | matrixArgument argument ty =>
    "Matrix type " ++ argument.text ++ " only valid as first argument for " ++ ty.text ++ "."
  | noOverloadForTypes count =>
    "No overloaded function available that matches the first " ++ toString count ++ " arguments."
  | tooManyArguments needed =>
    "Too many arguments given to builtin constructor, need only " ++ toString needed ++ "."
  | missingComponents count =>
    "Not enough arguments given to builtin constructor, " ++ toString count ++ " are missing."
  | noOverloadForCount count =>
    "No overloaded function available with " ++ toString count ++ " arguments."
  | ambiguousCall => "Cannot find unique match for overloaded function."
  | duplicateMember name => "struct already has a member named " ++ quoted name ++ "."
  | redefinedStruct name => "Redefinition of struct " ++ quoted name ++ "."
  | redefinedVariable name => "Redefinition of variable " ++ quoted name ++ "."
  | uninitializable storage =>
    "Variables with " ++ storage.name ++ " storage cannot be initialized."
  | noMember ty name => "Type " ++ ty.text ++ " has no member named " ++ quoted name ++ "."
  | unknownFunction name => "No function named " ++ quoted name ++ "."
  | unknownVariable name => "No variable named " ++ quoted name ++ "."
  | inoutQualifier => quoted "inout" ++ " is only allowed for function parameters."
  | variableInitializer name =>
    "Initializer for global variable " ++ quoted name ++ " must be constant."
  | unaryOperator found => "Unary operator " ++ quoted found.text ++ " is not implemented yet."
  | subscript => "Array subscripts are not implemented yet."
  | postfixOperator found =>
    "Postfix operator " ++ quoted found.text ++ " is not implemented yet."
  | lengthCall => ".length() is not implemented yet."
  | assignedReadOnly name => "Cannot assign constant " ++ quoted name ++ "."
  | constantInitializer name => "Initializer for constant " ++ quoted name ++ " is not constant."
  | uninitializedConstant name => "Constant " ++ quoted name ++ " must be initialized."

end Problem

/-- A problem and where it was met. -/
structure Diagnostic where
  problem : Problem
  span : Span
  deriving DecidableEq, Repr

end ShaderExpr
