import Mathlib.Tactic.Common
import ShaderExpr.Expr
import ShaderExpr.Proofs.Collections

namespace ShaderExpr

namespace ScalarType

theorem convertsTo_self (s : ScalarType) : s.convertsTo s := by
  cases s <;> rfl

theorem isFloating_of_convertsTo {s t : ScalarType} (h : s.convertsTo t) (hs : s.isFloating) :
    t.isFloating := by
  cases s <;> cases t <;> simp_all [convertsTo, rank?, isFloating]

theorem ne_bool_of_convertsTo {s t : ScalarType} (h : s.convertsTo t) (hs : s ≠ .bool) :
    t ≠ .bool := by
  cases s <;> cases t <;> simp_all [convertsTo, rank?]

end ScalarType

/-- The common component type is that of one of the operands, and both convert to it. -/
theorem commonComponent_eq_ok {left right : Ty} {s : ScalarType}
    (h : commonComponent left right = .ok s) : ∃ l r, left.component? = some l ∧
      right.component? = some r ∧ l.convertsTo s ∧ r.convertsTo s := by
  unfold commonComponent at h
  split at h
  · rename_i l r hl hr
    split at h
    · rename_i hconverts
      obtain rfl := Except.ok.inj h
      exact ⟨l, r, hl, hr, hconverts, r.convertsTo_self⟩
    · split at h
      · rename_i hconverts
        obtain rfl := Except.ok.inj h
        exact ⟨l, r, hl, hr, l.convertsTo_self, hconverts⟩
      · simp at h
  · simp at h

namespace Ty

/-- A term is of the type of the result, or a scalar that stands for all its components. -/
def IsTerm (s : ScalarType) (ty t : Ty) : Prop := t = ty ∨ t = .scalar s

theorem convertsTo_self {ty : Ty} (h : ty.isVoid = false) : ty.convertsTo ty := by
  cases ty with
  | void => simp [isVoid] at h
  | scalar s | vector s | matrix s => simp [convertsTo, s.convertsTo_self]
  | struct => simp [convertsTo]

theorem isBasic_of_component? {ty : Ty} {s : ScalarType} (h : ty.component? = some s) :
    ty.isBasic := by
  cases ty <;> first | rfl | simp [component?] at h

theorem component?_of_isBasic {ty : Ty} (h : ty.isBasic) : ∃ s, ty.component? = some s := by
  cases ty with
  | void | struct => simp [isBasic] at h
  | scalar s | vector s | matrix s => exact ⟨s, rfl⟩

theorem isStruct_of_isBasic {ty : Ty} (h : ty.isBasic) : ty.isStruct = false := by
  cases ty with
  | void | struct => simp [isBasic] at h
  | scalar | vector | matrix => rfl

theorem isBasic_withComponent {ty : Ty} (h : ty.isBasic) (s : ScalarType) :
    (ty.withComponent s).isBasic := by
  cases ty with
  | void | struct => simp [isBasic] at h
  | scalar | vector | matrix => rfl

theorem component?_withComponent {ty : Ty} (h : ty.isBasic) (s : ScalarType) :
    (ty.withComponent s).component? = some s := by
  cases ty with
  | void | struct => simp [isBasic] at h
  | scalar | vector | matrix => rfl

theorem componentCount_withComponent {ty : Ty} (h : ty.isBasic) (s : ScalarType) :
    (ty.withComponent s).componentCount = ty.componentCount := by
  cases ty with
  | void | struct => simp [isBasic] at h
  | scalar | vector | matrix => rfl

end Ty

namespace Operator

/-- Terms have the same shape, or one of them is a scalar that stands for all components. The
    result has components `s`. -/
inductive TermShape (s : ScalarType) : Ty → Ty → Ty → Prop
  | same {left right : Ty} (basic : left.isBasic)
    (shapes : left.withComponent s = right.withComponent s) :
    TermShape s left right (left.withComponent s)
  | scalarLeft {l : ScalarType} {right : Ty} (basic : right.isBasic) :
    TermShape s (.scalar l) right (right.withComponent s)
  | scalarRight {left : Ty} {r : ScalarType} (basic : left.isBasic) :
    TermShape s left (.scalar r) (left.withComponent s)

/-- Factors are those of a product of linear algebra, or else like terms. -/
inductive ProductShape (s : ScalarType) : Ty → Ty → Ty → Prop
  | matrices {l r : ScalarType} {columns inner rows : Dim} :
    ProductShape s (.matrix l inner rows) (.matrix r columns inner) (.matrix s columns rows)
  | matrixVector {l r : ScalarType} {columns rows : Dim} :
    ProductShape s (.matrix l columns rows) (.vector r columns) (.vector s rows)
  | vectorMatrix {l r : ScalarType} {columns rows : Dim} :
    ProductShape s (.vector l rows) (.matrix r columns rows) (.vector s columns)
  | terms {left right ty : Ty} (shape : TermShape s left right ty)
    (plain : ¬(left.isMatrix ∧ right.isMatrix)) : ProductShape s left right ty

/-- What the operator of a family gives to operands, as rules: the shapes of factors and of terms,
    and the kinds of components. The check computes the same type step by step. -/
inductive Typed : Family → Ty → Ty → Ty → Prop
  | multiplication {left right ty : Ty} {s : ScalarType} (number : s ≠ .bool)
    (common : commonComponent left right = .ok s) (shape : ProductShape s left right ty) :
    Typed .multiplication left right ty
  | arithmetic {left right ty : Ty} {s : ScalarType} (number : s ≠ .bool)
    (common : commonComponent left right = .ok s) (shape : TermShape s left right ty) :
    Typed .arithmetic left right ty
  | integer {family : Family} {left right ty : Ty} {s : ScalarType}
    (integral : family = .modulo ∨ family = .bitwise) (left_integral : isIntegral left)
    (right_integral : isIntegral right) (integer : s.isInteger)
    (shape : TermShape s left right ty) : Typed family left right ty
  | shift {left right : Ty} (left_integral : isIntegral left) (right_integral : isIntegral right)
    (shape : (∃ s, right = .scalar s) ∨ ∃ l r n, left = .vector l n ∧ right = .vector r n) :
    Typed .shift left right left
  | relational {l r s : ScalarType} (left_number : l ≠ .bool) (right_number : r ≠ .bool)
    (common : commonComponent (.scalar l) (.scalar r) = .ok s) :
    Typed .relational (.scalar l) (.scalar r) (.scalar .bool)
  | equality {left right : Ty} (left_basic : left.isBasic) (right_basic : right.isBasic)
    (comparable : left.convertsTo right ∨ right.convertsTo left) :
    Typed .equality left right (.scalar .bool)
  | logical : Typed .logical (.scalar .bool) (.scalar .bool) (.scalar .bool)

theorem productType_typed {left right ty : Ty} (h : productType left right = .ok ty) :
    Typed .multiplication left right ty := by
  unfold productType at h
  split at h
  · simp at h
  · rename_i hbasic
    split at h
    · simp at h
    · rename_i hnumber
      rw [Except.bind_eq_ok] at h
      obtain ⟨s, hs, h⟩ := h
      obtain ⟨l, r, hl, hr, hls, -⟩ := commonComponent_eq_ok hs
      have hs_number : s ≠ .bool := by
        refine ScalarType.ne_bool_of_convertsTo hls ?_
        rintro rfl
        exact hnumber (.inl hl)
      have hbasic : left.isBasic ∧ right.isBasic := by simpa using hbasic
      refine .multiplication hs_number hs ?_
      split at h
      · split at h
        · rename_i hinner
          subst hinner
          rw [← Except.ok.inj h]
          exact .matrices
        · simp at h
      · split at h
        · rename_i hcolumns
          subst hcolumns
          rw [← Except.ok.inj h]
          exact .matrixVector
        · simp at h
      · split at h
        · rename_i hrows
          subst hrows
          rw [← Except.ok.inj h]
          exact .vectorMatrix
        · simp at h
      · split at h
        · rename_i hlength
          subst hlength
          rw [← Except.ok.inj h]
          exact .terms (.same rfl rfl) (by simp [Ty.isMatrix])
        · simp at h
      · rw [← Except.ok.inj h]
        exact .terms (.scalarLeft hbasic.2) (by simp [Ty.isMatrix])
      · rename_i hmm hmv hvm hvv hscalar
        obtain ⟨r', rfl⟩ : ∃ r', right = .scalar r' := by
          cases left <;> cases right <;> grind [Ty.isBasic]
        rw [← Except.ok.inj h]
        exact .terms (.scalarRight hbasic.1) (by simp [Ty.isMatrix])

theorem arithmeticType_typed {left right ty : Ty} (h : arithmeticType left right = .ok ty) :
    Typed .arithmetic left right ty := by
  unfold arithmeticType at h
  split at h
  · simp at h
  · rename_i hbasic
    split at h
    · simp at h
    · rename_i hnumber
      rw [Except.bind_eq_ok] at h
      obtain ⟨s, hs, h⟩ := h
      obtain ⟨l, r, hl, hr, hls, -⟩ := commonComponent_eq_ok hs
      have hs_number : s ≠ .bool := by
        refine ScalarType.ne_bool_of_convertsTo hls ?_
        rintro rfl
        exact hnumber (.inl hl)
      have hbasic : left.isBasic ∧ right.isBasic := by simpa using hbasic
      refine .arithmetic hs_number hs ?_
      split at h
      · split at h
        · rename_i hsizes
          obtain ⟨rfl, helements⟩ := hsizes
          obtain ⟨rfl, rfl⟩ : _ ∧ _ := by simpa [Ty.element?] using helements
          rw [← Except.ok.inj h]
          exact .same rfl rfl
        · simp at h
      · simp at h
      · simp at h
      · split at h
        · rename_i hlength
          subst hlength
          rw [← Except.ok.inj h]
          exact .same rfl rfl
        · simp at h
      · rw [← Except.ok.inj h]
        exact .scalarLeft hbasic.2
      · rename_i hmm hmv hvm hvv hscalar
        obtain ⟨r', rfl⟩ : ∃ r', right = .scalar r' := by
          cases left <;> cases right <;> grind [Ty.isBasic]
        rw [← Except.ok.inj h]
        exact .scalarRight hbasic.1

theorem integerType_typed {family : Family} {left right ty : Ty}
    (hfamily : family = .modulo ∨ family = .bitwise) (h : integerType left right = .ok ty) :
    Typed family left right ty := by
  unfold integerType at h
  split at h
  · simp at h
  · rename_i hintegral
    obtain ⟨hleft, hright⟩ : isIntegral left ∧ isIntegral right := by simpa using hintegral
    dsimp only at h
    generalize hs : (if left.component? = some ScalarType.uint ∨
      right.component? = some ScalarType.uint then ScalarType.uint else .int) = s at h
    have hinteger : s.isInteger := by
      rw [← hs]
      split <;> rfl
    refine .integer hfamily hleft hright hinteger ?_
    split at h
    · split at h
      · rename_i hlength
        subst hlength
        rw [← Except.ok.inj h]
        exact .same rfl rfl
      · simp at h
    · rename_i hvectors
      obtain ⟨r, rfl⟩ : ∃ r, right = .scalar r := by
        cases right <;> simp_all [isIntegral]
      rw [← Except.ok.inj h]
      exact .scalarRight rfl
    · rename_i hvectors hvector
      obtain ⟨l, rfl⟩ : ∃ l, left = .scalar l := by
        cases left <;> simp_all [isIntegral]
      rw [← Except.ok.inj h]
      exact .scalarLeft rfl
    · obtain ⟨l, rfl⟩ : ∃ l, left = .scalar l := by
        cases left <;> simp_all [isIntegral]
      rw [← Except.ok.inj h]
      obtain ⟨r, rfl⟩ : ∃ r, right = .scalar r := by
        cases right <;> simp_all [isIntegral]
      exact .same rfl rfl

theorem shiftType_typed {left right ty : Ty} (h : shiftType left right = .ok ty) :
    Typed .shift left right ty := by
  unfold shiftType at h
  split at h
  · simp at h
  · rename_i hintegral
    obtain ⟨hleft, hright⟩ : isIntegral left ∧ isIntegral right := by simpa using hintegral
    split at h
    · simp at h
    · split at h
      · rename_i hlength
        subst hlength
        rw [← Except.ok.inj h]
        exact .shift hleft hright (.inr ⟨_, _, _, rfl, rfl⟩)
      · simp at h
    · rename_i hscalar hvectors
      rw [← Except.ok.inj h]
      refine .shift hleft hright (.inl ?_)
      cases left <;> cases right <;> grind [isIntegral]

theorem relationType_typed {left right ty : Ty} (h : relationType left right = .ok ty) :
    Typed .relational left right ty := by
  unfold relationType at h
  split at h
  · rename_i hnumbers
    rw [Except.bind_eq_ok] at h
    obtain ⟨s, hs, h⟩ := h
    rw [← Except.ok.inj h]
    cases left <;> cases right <;> simp [isNumber] at hnumbers
    exact .relational hnumbers.1 hnumbers.2 hs
  · simp at h

theorem equalityType_typed {left right ty : Ty} (h : equalityType left right = .ok ty) :
    Typed .equality left right ty := by
  unfold equalityType at h
  split at h
  · simp at h
  · rename_i hbasic
    obtain ⟨hleft, hright⟩ : left.isBasic ∧ right.isBasic := by simpa using hbasic
    split at h
    · rename_i hcomparable
      rw [← Except.ok.inj h]
      exact .equality hleft hright (by simpa using hcomparable)
    · simp at h

theorem eq_of_convertsTo_bool {ty : Ty} (h : ty.convertsTo (.scalar .bool)) :
    ty = .scalar .bool := by
  cases ty with
  | scalar s => cases s <;> simp_all [Ty.convertsTo, ScalarType.convertsTo, ScalarType.rank?]
  | void | vector | matrix | struct => simp [Ty.convertsTo] at h

theorem logicalType_typed {left right ty : Ty} (h : logicalType left right = .ok ty) :
    Typed .logical left right ty := by
  unfold logicalType at h
  split at h
  · rename_i hbool
    obtain ⟨hleft, hright⟩ := Bool.and_eq_true_iff.mp hbool
    rw [← Except.ok.inj h, eq_of_convertsTo_bool hleft, eq_of_convertsTo_bool hright]
    exact .logical
  · simp at h

/-- The type that an operator gives comes from the rule of its family. -/
theorem resultType_typed {op : Operator} {left right ty : Ty}
    (h : op.resultType left right = .ok ty) : Typed op.family left right ty := by
  unfold resultType at h
  split at h
  · rename_i hfamily
    exact hfamily ▸ productType_typed h
  · rename_i hfamily
    exact hfamily ▸ arithmeticType_typed h
  · rename_i hfamily
    exact integerType_typed (.inl hfamily) h
  · rename_i hfamily
    exact integerType_typed (.inr hfamily) h
  · rename_i hfamily
    exact hfamily ▸ shiftType_typed h
  · rename_i hfamily
    exact hfamily ▸ relationType_typed h
  · rename_i hfamily
    exact hfamily ▸ equalityType_typed h
  · rename_i hfamily
    exact hfamily ▸ logicalType_typed h

theorem TermShape.component {s : ScalarType} {left right ty : Ty}
    (h : TermShape s left right ty) : ty.component? = some s := by
  cases h with
  | same basic => exact Ty.component?_withComponent basic s
  | scalarLeft basic => exact Ty.component?_withComponent basic s
  | scalarRight basic => exact Ty.component?_withComponent basic s

theorem TermShape.basic {s : ScalarType} {left right ty : Ty} (h : TermShape s left right ty) :
    ty.isBasic :=
  Ty.isBasic_of_component? h.component

theorem TermShape.terms {s : ScalarType} {left right ty : Ty} (h : TermShape s left right ty) :
    Ty.IsTerm s ty (left.withComponent s) ∧ Ty.IsTerm s ty (right.withComponent s) := by
  cases h with
  | same basic shapes => exact ⟨.inl rfl, .inl shapes.symm⟩
  | scalarLeft => exact ⟨.inr rfl, .inl rfl⟩
  | scalarRight => exact ⟨.inl rfl, .inr rfl⟩

theorem TermShape.any {s : ScalarType} {left right ty : Ty} (h : TermShape s left right ty) :
    left.withComponent s = ty ∨ right.withComponent s = ty := by
  cases h with
  | same => exact .inl rfl
  | scalarLeft => exact .inr rfl
  | scalarRight => exact .inl rfl

theorem ProductShape.component {s : ScalarType} {left right ty : Ty}
    (h : ProductShape s left right ty) : ty.component? = some s := by
  cases h with
  | matrices | matrixVector | vectorMatrix => rfl
  | terms shape => exact shape.component

/-- Operators give no structs. -/
theorem Typed.basic {family : Family} {left right ty : Ty} (h : Typed family left right ty) :
    ty.isBasic := by
  cases h with
  | multiplication _ _ shape => exact Ty.isBasic_of_component? shape.component
  | arithmetic _ _ shape => exact shape.basic
  | integer _ _ _ _ shape => exact shape.basic
  | shift left_integral =>
    cases left <;> first | rfl | simp [isIntegral] at left_integral
  | relational | equality | logical => rfl

end Operator

end ShaderExpr
