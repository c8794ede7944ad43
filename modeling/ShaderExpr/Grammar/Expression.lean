import ShaderExpr.Expr
import ShaderExpr.Grammar.TypeName

namespace ShaderExpr.Reader

/-- Letters and components that a name selects from a scalar or a vector. The first letter decides
    which set all of them have to come from. -/
def selection (ty : Ty) (name : String) : Except Problem (Letters × List Nat) :=
  let noMember := Problem.noMember ty name
  match name.toList with
  | [] => .error noMember
  | first :: _ =>
    match Letters.containing? first with
    | none => .error noMember
    | some letters => do
      let indexes ← name.toList.mapM fun c =>
        match letters.index? c with
        | none => .error (Problem.swizzleLetter c letters.text)
        | some i => if i < max ty.length 1 then .ok i else .error (.swizzleRange c ty)
      return (letters, indexes)

/-- A selection of components. Of too many the first four are kept. -/
def swizzle (base : Expr) (name : String) (span : Span) : Reader Expr := do
  match selection base.ty name with
  | .error problem =>
    reportAt span problem
    return .placeholder
  | .ok (letters, indexes) =>
    if 4 < indexes.length then reportAt span .swizzleTooLong
    return .swizzle base letters (indexes.take 4)

/-- Components of a scalar or vector, or a member of a struct. -/
def fieldOf (base : Expr) (name : String) (span : Span) : Reader Expr := do
  match base.ty with
  | .scalar _ | .vector .. => swizzle base name span
  | .struct .. =>
    match base.ty.memberIndex? name with
    | some index => return .member base index
    | none =>
      reportAt span (.noMember base.ty name)
      return .placeholder
  | _ =>
    reportAt span (.noFields base.ty)
    return .placeholder

/-- The field behind a point. -/
def field (base : Expr) : Reader Expr := do
  match ← kind with
  | .ident name =>
    let nameSpan ← span
    advance
    if name = "length" && (← isControl '(') then
      reportAt nameSpan .lengthCall
      skipPast ')'
      return .placeholder
    else fieldOf base name nameSpan
  | _ =>
    report .expectedField
    return base

/-- Takes one argument of a constructor of `ty`, where `missing` components are still to come. A
    matrix takes one matrix, or else arguments that are none. -/
def takeComponents (ty : Ty) (span : Span) (argument : Expr) (missing : Int)
    (arguments : List Expr) : Reader (Int × List Expr) := do
  if missing ≤ 0 then
    reportAt span (.tooManyArguments arguments.length)
    return (missing, arguments)
  else if !argument.ty.isBasic then
    reportAt span (.constructorArgument argument.ty)
    return (missing, arguments)
  else if argument.ty.isMatrix && ty.isMatrix then
    if arguments.isEmpty then return (0, [argument])
    else
      reportAt span (.matrixArgument argument.ty ty)
      return (missing, arguments ++ [argument])
  else return (missing - argument.ty.componentCount, arguments ++ [argument])

/-- Arguments of a constructor of `ty` between commas. -/
def componentArguments (nested : Reader Expr) (ty : Ty) :
    Nat → Int → List Expr → Reader (Int × List Expr)
  | 0, missing, arguments => return (missing, arguments)
  | bound + 1, missing, arguments => do
    let argumentSpan ← span
    let argument ← nested
    let (missing, arguments) ← takeComponents ty argumentSpan argument missing arguments
    if ← isControl ',' then
      advance
      componentArguments nested ty bound missing arguments
    else return (missing, arguments)

/-- Call of the constructor of a scalar, vector or matrix type. -/
def construction (nested : Reader Expr) (ty : Ty) : Reader Expr := do
  if ← isControl '(' then
    let opening ← span
    advance
    let problems ← problemCount
    let needed : Int := ty.componentCount
    let (missing, arguments) ←
      if ← isControl ')' then pure (needed, [])
      else componentArguments nested ty ((← remaining) + 1) needed []
    expectControl ')' .expectedArgumentsEnd
    let singleScalar := match arguments with
      | [argument] => argument.isScalarValued
      | _ => false
    if 0 < missing && !singleScalar then
      reportAt (opening.merge (← get).last) (.missingComponents missing.toNat)
    if problems < (← problemCount) then return .placeholder
    else return .construct ty arguments
  else
    report (.expectedConstruction ty)
    return .placeholder

/-- Arguments of a call between commas, which narrow the candidates down. Only the argument that
    excludes the last candidate is reported. -/
def callArguments (nested : Reader Expr) :
    Nat → Candidates → List Expr → Reader (Candidates × List Expr)
  | 0, candidates, arguments => return (candidates, arguments)
  | bound + 1, candidates, arguments => do
    let argumentSpan ← span
    let argument ← nested
    let narrowed := candidates.takeArgument arguments.length argument.ty
    if !candidates.isEmpty && narrowed.isEmpty then
      reportAt argumentSpan (.noOverloadForTypes (arguments.length + 1))
    let arguments := arguments ++ [argument]
    if ← isControl ',' then
      advance
      callArguments nested bound narrowed arguments
    else return (narrowed, arguments)

/-- Call of one of the candidates, whose name stands at `nameSpan`. -/
def call (nested : Reader Expr) (candidates : Candidates) (nameSpan : Span) : Reader Expr := do
  if ← isControl '(' then
    advance
    let problems ← problemCount
    let (narrowed, arguments) ←
      if ← isControl ')' then pure (candidates, [])
      else callArguments nested ((← remaining) + 1) candidates []
    expectControl ')' .expectedArgumentsEnd
    if problems < (← problemCount) then return .placeholder
    else
      let left := narrowed.takeCount arguments.length
      if left.isEmpty then
        reportAt nameSpan (.noOverloadForCount arguments.length)
        return .placeholder
      else match left.choice? with
        | some f => return .call f arguments
        | none =>
          reportAt nameSpan .ambiguousCall
          return .placeholder
  else
    report .expectedCall
    return .placeholder

/-- Call of the constructor of any type. -/
def constructorCall (nested : Reader Expr) (ty : Ty) (nameSpan : Span) : Reader Expr :=
  if ty.isStruct then call nested (.ofFunctions [.constructor ty]) nameSpan
  else construction nested ty

/-- What a name means: a type before a function, a function before a variable. -/
def named (nested : Reader Expr) (name : String) (nameSpan : Span) : Reader Expr := do
  let scope ← scope
  match scope.typeNamed name with
  | some ty => constructorCall nested ty nameSpan
  | none =>
    if scope.hasFunction name then
      call nested (.ofFunctions (scope.functions name)) nameSpan
    else match scope.variableNamed name with
      | some x => return .reference x
      | none =>
        if ← isControl '(' then
          reportAt nameSpan (.unknownFunction name)
          skipPast ')'
        else reportAt nameSpan (.unknownVariable name)
        return .placeholder

/-- Names, literals, constructors, and expressions in parentheses. -/
def primary (nested : Reader Expr) : Reader Expr := do
  let tokenSpan ← span
  match ← kind with
  | .ident name =>
    advance
    named nested name tokenSpan
  | .literal value =>
    advance
    return .constant (.ofScalar value)
  | .control '(' =>
    advance
    let e ← nested
    expectControl ')' .expectedClosing
    return e
  | .keyword word =>
    if word = "struct" then
      match ← definition with
      | some ty => constructorCall nested ty tokenSpan
      | none => return .placeholder
    else match (Ty.ofWord? word).filter (·.isBasic) with
      | some ty =>
        advance
        constructorCall nested ty tokenSpan
      | none =>
        report (.notExpression (.keyword word))
        advance
        return .placeholder
  | _ =>
    report .expectedExpression
    advance
    return .placeholder

/-- Fields and unsupported operators behind an expression. -/
def postfixes : Nat → Expr → Reader Expr
  | 0, e => return e
  | bound + 1, e => do
    match ← kind with
    | .control '.' =>
      advance
      postfixes bound (← field e)
    | .control '[' =>
      report .subscript
      skipPast ']'
      postfixes bound e
    | .symbol .increment | .symbol .decrement =>
      report (.postfixOperator (← kind))
      advance
      postfixes bound e
    | _ => return e

def postfixed (nested : Reader Expr) : Reader Expr := do
  let e ← primary nested
  postfixes (← remaining) e

/-- Negation of an expression, whose sign stands at `signSpan`. -/
def negated (e : Expr) (signSpan : Span) : Reader Expr := do
  if !e.ty.isBasic then
    reportAt signSpan (.negatedShape e.ty)
    return .placeholder
  else if e.ty.component? = some .bool then
    reportAt signSpan (.negatedBoolean e.ty)
    return .placeholder
  else return .negate e

/-- Operators in front of an expression. -/
def signed (nested : Reader Expr) : Nat → Reader Expr
  | 0 => postfixed nested
  | bound + 1 => do
    match ← kind with
    | .control '+' =>
      advance
      signed nested bound
    | .control '-' =>
      let signSpan ← span
      advance
      negated (← signed nested bound) signSpan
    | .control '!' | .control '~' | .symbol .increment | .symbol .decrement =>
      report (.unaryOperator (← kind))
      advance
      signed nested bound
    | _ => postfixed nested

def unary (nested : Reader Expr) : Reader Expr := do signed nested ((← remaining) + 1)

/-- Combines two operands, or keeps the left one when they do not go together. -/
def combined (op : Operator) (operatorSpan : Span) (left right : Expr) : Reader Expr := do
  match op.resultType left.ty right.ty with
  | .ok ty => return .binary op ty left right
  | .error e =>
    reportAt operatorSpan (.operands e)
    return left

/-- Operators of one precedence behind their left operand. -/
def chain (operand : Reader Expr) (precedence : Nat) : Nat → Expr → Reader Expr
  | 0, left => return left
  | bound + 1, left => do
    match (← kind).operator?.filter (·.precedence = precedence) with
    | some op =>
      let operatorSpan ← span
      advance
      let right ← operand
      chain operand precedence bound (← combined op operatorSpan left right)
    | none => return left

/-- The tightest `levels` levels of binary operators, from precedence twelve downwards. -/
def binaryLevels (operand : Reader Expr) : Nat → Reader Expr
  | 0 => operand
  | level + 1 => do
    let left ← binaryLevels operand level
    chain (binaryLevels operand level) (12 - level) (← remaining) left

/-- All binary operators. -/
def operation (nested : Reader Expr) : Reader Expr := binaryLevels (unary nested) 11

/-- Type of what is assigned. -/
def assignedType (op : Option Operator) (target value : Ty) : Except OperandError Ty :=
  match op with
  | some op => op.resultType target value
  | none => .ok value

/-- Assignment of `value`, whose operator stands at `operatorSpan`. When it does not fit, the
    target alone is kept. -/
def assigned (op : Option Operator) (operatorSpan : Span) (target value : Expr) : Reader Expr := do
  match assignedType op target.ty value.ty with
  | .error e =>
    reportAt operatorSpan (.operands e)
    return target
  | .ok ty =>
    if ty.convertsTo target.ty then return .assign op ty target value
    else
      reportAt operatorSpan (.assignmentType ty target.ty)
      return target

/-- An operation or an assignment. The right side is read before the assignment is made, so that
    assignments group to the right. -/
def assignment (nested : Reader Expr) : Reader Expr := do
  let target ← operation nested
  match (← kind).assignment? with
  | none => return target
  | some op =>
    if !target.isAssignable then
      report .notAssignable
      advance
      nested
    else match target.assigned?.filter (·.qualifier.isReadOnly) with
      | some x =>
        report (.assignedReadOnly x.name)
        advance
        let _ ← nested
        return target
      | none =>
        let operatorSpan ← span
        advance
        assigned op operatorSpan target (← nested)

/-- An expression with less than `depth` expressions nested in one another. The levels of the
    grammar are built upon one another, and what stands inside of parentheses or of an argument
    list, or on the right of an assignment, is read by the parameter `nested` of each. -/
def expressionWithin : Nat → Reader Expr
  | 0 => do
    report .expectedExpression
    return .placeholder
  | depth + 1 => assignment (expressionWithin depth)

/-- An expression. Each nested one takes a token first, so their depth is less than the number of
    tokens. -/
def expression : Reader Expr := do expressionWithin ((← remaining) + 1)

end ShaderExpr.Reader
