import ShaderExpr.Program

namespace ShaderExpr

namespace Expr

mutual
/-- Are two trees the same? With a decision, what a source is read as can be checked by evaluation.
    -/
def same : Expr → Expr → Bool
  | constant v, constant w => v = w
  | reference x, reference y => x = y
  | binary op ty left right, binary op' ty' left' right' =>
    op = op' && ty = ty' && same left left' && same right right'
  | assign op ty target value, assign op' ty' target' value' =>
    op = op' && ty = ty' && same target target' && same value value'
  | negate e, negate e' => same e e'
  | construct ty es, construct ty' es' => ty = ty' && sameAll es es'
  | call f es, call f' es' => f = f' && sameAll es es'
  | member e index, member e' index' => index = index' && same e e'
  | swizzle e letters indexes, swizzle e' letters' indexes' =>
    letters = letters' && indexes = indexes' && same e e'
  | _, _ => false
def sameAll : List Expr → List Expr → Bool
  | [], [] => true
  | e :: es, e' :: es' => same e e' && sameAll es es'
  | _, _ => false
end

mutual
theorem same_self : ∀ e : Expr, same e e
  | constant _ | reference _ => by simp [same]
  | binary _ _ left right | assign _ _ left right => by simp [same, same_self left, same_self right]
  | negate e | member e _ | swizzle e _ _ => by simp [same, same_self e]
  | construct _ es | call _ es => by simp [same, sameAll_self es]
theorem sameAll_self : ∀ es : List Expr, sameAll es es
  | [] => rfl
  | e :: es => by simp [sameAll, same_self e, sameAll_self es]
end

theorem eq_of_same {e e' : Expr} : same e e' → e = e' := by
  apply @same.induct (fun e e' => same e e' → e = e') fun es es' => sameAll es es' → es = es'
  all_goals
    intros
    simp_all [same, sameAll]

instance : DecidableEq Expr := fun e e' =>
  if h : same e e' then .isTrue (eq_of_same h) else .isFalse fun heq => h (heq ▸ same_self e)

end Expr

deriving instance DecidableEq for Scope, Program

end ShaderExpr
