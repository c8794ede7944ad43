import ShaderExpr.Proofs.Reading.Declared

namespace ShaderExpr

namespace Expr

/-- Nodes that leave every expression around them without a value at compile time: assignments,
    operators that are not evaluated, and variables that are no constants in it. -/
def Varies : Expr → Prop
  | assign .. => True
  | binary op _ _ _ =>
    match op.family with
    | .modulo | .shift | .bitwise | .relational | .equality | .logical => True
    | .multiplication | .arithmetic => False
  | reference x => x.qualifier.isConstant = false
  | _ => False

theorem evaluates_iff_not_varies (e : Expr) : e.Evaluates ↔ ¬e.Varies := by
  cases e with
  | binary op ty left right =>
    unfold Evaluates Varies Folding.IsEvaluated
    cases hfamily : op.family <;> simp [hfamily]
  | reference x => simp [Evaluates, Varies]
  | constant | assign | negate | construct | call | member | swizzle => simp [Evaluates, Varies]

/-- What holds wherever one stands in a tree holds all through it. The nodes of the tree are taken
    from anything else that is known to hold all through it. -/
theorem All.of_within {P Q : Expr → Prop} {e : Expr} (h : All Q e)
    (hP : ∀ s : Expr, s.Within e → P s) : All P e := by
  induction h with
  | node _ _ ih => exact .node (hP _ .whole) fun p hp => ih p hp fun s hs => hP s (.part hp hs)

/-- A well-typed tree is one of constants exactly if nothing in it varies. -/
theorem WellTyped.isConstant_iff {xs : List Variable} {e : Expr} (h : e.WellTyped xs) :
    e.IsConstant ↔ ∀ s : Expr, s.Within e → ¬s.Varies :=
  ⟨fun hconstant s hs => s.evaluates_iff_not_varies.mp (hconstant.within hs).holds,
    fun hvaries => h.of_within fun s hs => s.evaluates_iff_not_varies.mpr (hvaries s hs)⟩

end Expr

namespace Program

variable {source : String} {p : Program}

/-- A part of a program's expression has no value at compile time exactly if something in it varies.
    All else is evaluated, to a value of its type. Since the program was read without problems, no
    part of it is a placeholder, and evaluation meets no fault. -/
theorem constant?_eq_none_iff (hparse : parse source = .ok p) {e : Expr}
    (he : e.Within p.expression) :
    (e.constant? = .ok none ↔ ∃ s : Expr, s.Within e ∧ s.Varies) ∧
      ((∀ s : Expr, s.Within e → ¬s.Varies) → ∃ v, e.constant? = .ok (some v) ∧ v.ty = e.ty) := by
  obtain ⟨hscope, htree⟩ := wellFormed_of_parseIn .empty hparse
  have htree : e.WellTyped p.scope.declared := htree.within he
  have hconstant := htree.isConstant_iff
  rcases (htree.settles hscope.declared).constant?_cases with ⟨h, v, hv, hty⟩ | ⟨h, hnone⟩
  · have hall := hconstant.mp h
    refine ⟨⟨fun hnone => ?_, fun ⟨s, hs, hvaries⟩ => absurd hvaries (hall s hs)⟩,
      fun _ => ⟨v, hv, hty⟩⟩
    simp [hv] at hnone
  · refine ⟨⟨fun _ => ?_, fun _ => hnone⟩, fun hall => absurd (hconstant.mpr hall) h⟩
    by_contra hnot
    exact h (hconstant.mpr fun s hs hvaries => hnot ⟨s, hs, hvaries⟩)

/-- A product of constants beside a variable that may change. -/
theorem constant?_eq_none_iff_product : ∃ p, parse "float x; const mat2 m = mat2(2); m * m * x" =
    .ok p ∧ p.expression.Within p.expression ∧
      ((p.expression.constant? = .ok none ↔ ∃ s : Expr, s.Within p.expression ∧ s.Varies) ∧
        ((∀ s : Expr, s.Within p.expression → ¬s.Varies) →
          ∃ v, p.expression.constant? = .ok (some v) ∧ v.ty = p.expression.ty)) := by
  obtain ⟨p, hp⟩ := parse_eq_ok_of_isSome "float x; const mat2 m = mat2(2); m * m * x"
    (by decide +kernel)
  exact ⟨p, hp, .whole, constant?_eq_none_iff hp .whole⟩

end Program

end ShaderExpr
