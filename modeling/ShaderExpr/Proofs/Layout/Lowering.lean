import ShaderExpr.Proofs.Interning.Traces

namespace ShaderExpr

namespace Build

open Builder

variable {α : Type} {xs : List Variable}

/-- Wherever building starts, it only takes steps over the variables of a list, with code that
    computes. Stores and extended instructions are steps of their own, and no other kind of
    instruction gets into code. -/
def Computes (xs : List Variable) (r : Build α) : Prop :=
  ∀ b, r.Takes (Step xs (·.isComputed)) b fun _ _ => True

/-- All code for an expression is that of a body. -/
theorem expr_computes {e : Expr} (h : e.WellTyped xs) : (expr e).Computes xs :=
  expr_has (T := stepping fun _ computed => computed) h

end Build

end ShaderExpr
