import ShaderExpr.Expr.Folding
import ShaderExpr.Grammar.Expression

namespace ShaderExpr

/-- Reading that evaluates constants. -/
abbrev Evaluator := StateT Cursor (Except Fault)

instance : MonadLift Reader Evaluator := ⟨fun reader cursor => .ok (reader cursor)⟩

namespace Reader

/-- What a qualifier word says. -/
inductive QualifierWord
  | storage (s : Storage)
  | modifier (m : Modifier)
  /-- Only functions have parameters that go both ways. -/
  | inout

def qualifierWord? : String → Option QualifierWord
  | "in" => some (.storage .input)
  | "out" => some (.storage .output)
  | "uniform" => some (.storage .uniform)
  | "const" => some (.modifier .constant)
  | "invariant" => some (.modifier .invariant)
  | "coherent" => some (.modifier .coherent)
  | "volatile" => some (.modifier .volatile)
  | "restrict" => some (.modifier .restrict)
  | "readonly" => some (.modifier .readOnly)
  | "writeonly" => some (.modifier .writeOnly)
  | "inout" => some .inout
  | _ => none

/-- Adds what a qualifier word says. The last storage holds. -/
def qualify (word : String) (said : QualifierWord) (q : Qualifier) : Reader Qualifier := do
  match said with
  | .storage s =>
    if q.storage ≠ .global then report .secondStorage
    return { q with storage := s }
  | .modifier m =>
    if q.has m then
      report (.duplicateQualifier word)
      return q
    else return { q with modifiers := q.modifiers ++ [m] }
  | .inout =>
    report .inoutQualifier
    return q

def qualifierWords : Nat → Qualifier → Reader Qualifier
  | 0, q => return q
  | bound + 1, q => do
    match ← kind with
    | .keyword word =>
      match qualifierWord? word with
      | some said =>
        let q ← qualify word said q
        advance
        qualifierWords bound q
      | none => return q
    | _ => return q

def qualifier : Reader Qualifier := do
  let q ← qualifierWords (← remaining) {}
  if q.isConstant && q.storage ≠ .global then report (.constantStorage q.storage)
  return q

/-- Does a declaration start at the current token? A struct without a name starts an expression
    instead. -/
def startsDeclaration : Reader Bool := do
  let namedNext := match ← nextKind with
    | .ident _ => true
    | _ => false
  match ← kind with
  | .keyword word =>
    if (qualifierWord? word).isSome then return true
    else return namedNext && (← startsType)
  | _ => return namedNext && (← startsType)

/-- Checks a variable's type and name. -/
def checkVariable (name : String) (nameSpan : Span) (ty : Ty) : Reader Unit := do
  if ty.isVoid then reportAt nameSpan (.voidVariable name)
  if ((← scope).variableNamed name).isSome then reportAt nameSpan (.redefinedVariable name)

/-- Initial value of a variable, if the initializer gives one. -/
def initialValue (name : String) (ty : Ty) (q : Qualifier) (initializerSpan : Span)
    (initializer : Expr) : Evaluator (Option Value) := do
  if !q.storage.canInitialize then
    reportAt initializerSpan (.uninitializable q.storage)
    return none
  else if !initializer.ty.convertsTo ty then
    reportAt initializerSpan (.initializerType ty initializer.ty)
    return none
  else
    match ← (initializer.constant? : Except Fault _) with
    | some value => return (value.convert ty).toOption
    | none =>
      let problem := if q.isConstant then Problem.constantInitializer name
        else .variableInitializer name
      reportAt initializerSpan problem
      return none

/-- The initializer behind a variable's name. A constant has to have one. -/
def initializer (name : String) (nameSpan : Span) (ty : Ty) (q : Qualifier) :
    Evaluator (Option Value) := do
  if ← isControl '=' then
    advance
    let initializerSpan ← span
    let problems ← problemCount
    let e ← expression
    if problems < (← problemCount) then return none
    else initialValue name ty q initializerSpan e
  else
    if q.isConstant then reportAt nameSpan (.uninitializedConstant name)
    return none

/-- A variable behind its type, which is declared unless something is wrong with it. A missing
    semicolon does not hinder it. -/
def variableDeclaration (q : Qualifier) (ty : Ty) (name : String) : Evaluator Unit := do
  let nameSpan ← span
  advance
  let problems ← problemCount
  checkVariable name nameSpan ty
  let initial ← initializer name nameSpan ty q
  let valid := (← problemCount) = problems
  expectControl ';' .expectedDeclarationEnd
  if valid then
    modify fun c => { c with scope := (c.scope.addVariable name ty q initial).2 }

/-- A declaration of a variable, or of a struct alone. -/
def declaration : Evaluator Unit := do
  let q ← qualifier
  match ← type with
  | none =>
    report .expectedType
    skipPast ';'
  | some ty =>
    if ← isControl ';' then advance
    else match ← kind with
      | .ident name => variableDeclaration q ty name
      | _ =>
        report .expectedVariableName
        skipPast ';'

def declarations : Nat → Evaluator Unit
  | 0 => return
  | bound + 1 => do
    if ← startsDeclaration then
      declaration
      declarations bound

/-- Declarations, whose initializers are evaluated at once, an expression, and a semicolon or not.
    -/
def source : Evaluator Expr := do
  declarations (← remaining)
  let e ← expression
  if ← isControl ';' then advance
  let found ← kind
  if found ≠ .endOfInput then report (.expectedEnd found)
  return e

end Reader

end ShaderExpr
