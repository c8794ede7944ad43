import ShaderExpr.Grammar.Expression

namespace ShaderExpr.Reader

/-- A call whose arguments have been read, with the candidates that are left. Both ways into a list
    of arguments, the empty one and the one with commas, go on with this ending. -/
def callEnd (nameSpan : Span) (problems : Nat) (taken : Candidates × List Expr) : Reader Expr := do
  expectControl ')' .expectedArgumentsEnd
  if problems < (← problemCount) then return .placeholder
  else
    let left := taken.1.takeCount taken.2.length
    if left.isEmpty then
      reportAt nameSpan (.noOverloadForCount taken.2.length)
      return .placeholder
    else match left.choice? with
      | some f => return .call f taken.2
      | none =>
        reportAt nameSpan .ambiguousCall
        return .placeholder

theorem call_eq (nested : Reader Expr) (candidates : Candidates) (nameSpan : Span) :
    call nested candidates nameSpan = (do
      if ← isControl '(' then
        advance
        let problems ← problemCount
        if ← isControl ')' then callEnd nameSpan problems (candidates, [])
        else
          callEnd nameSpan problems (← callArguments nested ((← remaining) + 1) candidates [])
      else
        report .expectedCall
        return .placeholder) := rfl

/-- A construction whose arguments have been read, with the number of components they lack. -/
def constructionEnd (ty : Ty) (opening : Span) (problems : Nat) (taken : Int × List Expr) :
    Reader Expr := do
  expectControl ')' .expectedArgumentsEnd
  let singleScalar := match taken.2 with
    | [argument] => argument.isScalarValued
    | _ => false
  if 0 < taken.1 && !singleScalar then
    reportAt (opening.merge (← get).last) (.missingComponents taken.1.toNat)
  if problems < (← problemCount) then return .placeholder
  else return .construct ty taken.2

theorem construction_eq (nested : Reader Expr) (ty : Ty) :
    construction nested ty = (do
      if ← isControl '(' then
        let opening ← span
        advance
        let problems ← problemCount
        if ← isControl ')' then constructionEnd ty opening problems (ty.componentCount, [])
        else
          constructionEnd ty opening problems
            (← componentArguments nested ty ((← remaining) + 1) ty.componentCount [])
      else
        report (.expectedConstruction ty)
        return .placeholder) := rfl

theorem scope_bind_apply {α : Type} (f : Scope → Reader α) (c : Cursor) :
    (scope >>= f) c = f c.scope c := rfl

/-- A definition under a free name extends the scope, and only that. -/
theorem defineStruct_of_free {name : String} {ty : Ty} {c : Cursor} {s : Scope}
    (free : c.scope.addType? name ty = some s) (span : Span) :
    defineStruct name span ty c = ((), { c with scope := s }) := by
  rw [defineStruct, scope_bind_apply, free]
  rfl

theorem defineStruct_of_taken {name : String} {ty : Ty} {c : Cursor}
    (taken : c.scope.addType? name ty = none) (span : Span) :
    defineStruct name span ty c = reportAt span (.redefinedStruct name) c := by
  rw [defineStruct, scope_bind_apply, taken]

end ShaderExpr.Reader
