import ShaderExpr.Grammar.Cursor

namespace ShaderExpr

namespace Ty

/-- Types with a name of their own in the language. A square matrix has two names. -/
def builtins : List (String × Ty) :=
  let named (t : Ty) := (t.text, t)
  let sides := Dim.all.flatMap fun c => Dim.all.map fun r => (c, r)
  let matrices (s : ScalarType) := sides.flatMap fun (c, r) =>
    let t := Ty.matrix s c r
    [(t.text, t), (s.letter ++ "mat" ++ toString c.toNat ++ "x" ++ toString r.toNat, t)]
  named .void :: ScalarType.all.map (fun s => named (.scalar s)) ++
    ScalarType.all.flatMap (fun s => Dim.all.map fun n => named (.vector s n)) ++
    matrices .float ++ matrices .double

/-- The type that a word of the language names. -/
def ofWord? (word : String) : Option Ty := (builtins.find? (·.1 = word)).map (·.2)

end Ty

namespace Reader

/-- Type that a token names, a struct definition apart. -/
def namedType? (scope : Scope) : Token.Kind → Option Ty
  | .keyword word => Ty.ofWord? word
  | .ident name => scope.typeNamed name
  | _ => none

/-- Does a type start at the current token? -/
def startsType : Reader Bool := do
  let kind ← kind
  return kind = .keyword "struct" || (namedType? (← scope) kind).isSome

/-- A type name, or a struct definition as `definition` reads it. Where there is no type, no token
    is read. -/
def typeWith (definition : Reader (Option Ty)) : Reader (Option Ty) := do
  let kind ← kind
  if kind = .keyword "struct" then definition
  else
    let ty? := namedType? (← scope) kind
    if ty?.isSome then advance
    return ty?

/-- Names of members of type `ty` between commas. -/
def memberNames (ty : Ty) : Nat → List (String × Ty) → Reader (List (String × Ty))
  | 0, members => return members
  | bound + 1, members => do
    match ← kind with
    | .ident name =>
      let duplicate := members.any (·.1 = name)
      if duplicate then report (.duplicateMember name)
      advance
      let members := if duplicate then members else members ++ [(name, ty)]
      if ← isControl ',' then
        advance
        memberNames ty bound members
      else return members
    | _ =>
      report .expectedMemberName
      return members

/-- Member declarations up to the closing brace. -/
def members (definition : Reader (Option Ty)) :
    Nat → List (String × Ty) → Reader (List (String × Ty))
  | 0, found => return found
  | bound + 1, found => do
    if (← isControl '}') || (← kind) = .endOfInput then return found
    else
      match ← typeWith definition with
      | none =>
        report .expectedMemberType
        skipPast ';'
        members definition bound found
      | some ty =>
        if !(ty.isBasic || ty.isStruct) then report (.memberType ty)
        let found ← memberNames ty ((← remaining) + 1) found
        expectControl ';' .expectedMemberEnd
        members definition bound found

/-- Adds a named struct to the scope. -/
def defineStruct (name : String) (span : Span) (ty : Ty) : Reader Unit := do
  match (← scope).addType? name ty with
  | some scope => modify fun c => { c with scope }
  | none => reportAt span (.redefinedStruct name)

/-- A struct definition from its keyword on. `depth` bounds how deep definitions lie in one
    another. -/
def structDefinition : Nat → Reader (Option Ty)
  | 0 => return none
  | depth + 1 => do
    advance
    let nameSpan ← span
    let name ← match ← kind with
      | .ident name => do
        advance
        pure (some name)
      | _ => pure none
    if ← isControl '{' then
      advance
      let found ← members (structDefinition depth) (← remaining) []
      expectControl '}' .expectedStructEnd
      let ty := Ty.struct name found
      if let some name := name then defineStruct name nameSpan ty
      return some ty
    else
      report .expectedStructBody
      return none

/-- A struct definition whose keyword is the current token. -/
def definition : Reader (Option Ty) := do structDefinition (← remaining)

/-- A type name or a struct definition. -/
def type : Reader (Option Ty) := typeWith definition

end Reader

end ShaderExpr
