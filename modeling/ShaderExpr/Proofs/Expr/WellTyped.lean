import ShaderExpr.Proofs.Expr.Typing

namespace ShaderExpr

/-- A variable as declarations make it, also behind problems. -/
structure Variable.WellFormed (x : Variable) : Prop where
  present : x.ty.isVoid = false
  initial : ∀ v, x.initial = some v → v.ty = x.ty ∧ x.qualifier.storage.canInitialize
  constant : x.qualifier.isConstant → x.initial.isSome ∧ x.qualifier.storage = .global

/-- Variables that a declaration cannot initialize start with nothing. -/
theorem Variable.WellFormed.initial_eq_none {x : Variable} (h : x.WellFormed)
    (hplace : x.qualifier.storage.canInitialize = false) : x.initial = none := by
  cases hx : x.initial with
  | none => rfl
  | some v => exact absurd (h.initial v hx).2 (by rw [hplace]; exact Bool.false_ne_true)

/-- A builtin function of the table, or a struct. -/
def Function.IsCallable : Function → Prop
  | .builtin g => g ∈ g.builtin.overloads
  | .constructor ty => ty.isStruct

namespace Expr

/-- The expressions that an expression is directly made of. -/
def parts : Expr → List Expr
  | constant _ | reference _ => []
  | binary _ _ left right => [left, right]
  | assign _ _ target value => [target, value]
  | negate operand => [operand]
  | construct _ arguments | call _ arguments => arguments
  | member base _ | swizzle base _ _ => [base]

/-- An expression stands somewhere in a tree. -/
inductive Within (s : Expr) : Expr → Prop
  | whole : Within s s
  | part {e p : Expr} (part : p ∈ e.parts) (within : Within s p) : Within s e

/-- Every expression in a tree satisfies a predicate. -/
inductive All (P : Expr → Prop) : Expr → Prop
  | node {e : Expr} (holds : P e) (parts : ∀ p ∈ e.parts, All P p) : All P e

namespace All

variable {P : Expr → Prop} {e : Expr}

theorem holds (h : All P e) : P e := by
  cases h with
  | node holds => exact holds

theorem of_part (h : All P e) : ∀ p ∈ e.parts, All P p := by
  cases h with
  | node _ parts => exact parts

theorem within (h : All P e) {s : Expr} (hs : Within s e) : All P s := by
  induction hs with
  | whole => exact h
  | part hp _ ih => exact ih (h.of_part _ hp)

end All

/-- A node passed the check of its kind. -/
def Fits (xs : List Variable) : Expr → Prop
  | constant v => v.ty.isBasic
  | reference x => x ∈ xs
  | binary op ty left right => op.resultType left.ty right.ty = .ok ty
  | assign op ty target value => target.isAssignable ∧
      (∀ x, target.assigned? = some x → x.qualifier.isReadOnly = false) ∧
      Reader.assignedType op target.ty value.ty = .ok ty ∧ ty.convertsTo target.ty
  | negate operand => operand.ty.isBasic ∧ operand.ty.component? ≠ some .bool
  | construct ty arguments => ty.isBasic ∧ ∀ e ∈ arguments, e.ty.isBasic
  | call f arguments => f.IsCallable ∧
      List.Forall₂ (fun t u => t.convertsTo u = true) (arguments.map Expr.ty) f.parameters
  | member base index => index < base.ty.members.length
  | swizzle base _ indexes => ((∃ s, base.ty = .scalar s) ∨ ∃ s n, base.ty = .vector s n) ∧
      1 ≤ indexes.length ∧ indexes.length ≤ 4 ∧ ∀ i ∈ indexes, i < max base.ty.length 1

/-- Every node of a tree over some variables passed its check. Unlike a checked tree it may hold
    placeholders, so this is what reading leaves whether it meets problems or not. -/
abbrev WellTyped (xs : List Variable) : Expr → Prop := All (Fits xs)

end Expr

end ShaderExpr
