import ShaderExpr.Proofs.Build.Conversion

namespace ShaderExpr

open Typing

namespace Ty

theorem lanes?_of_basic {ty : Ty} {s : ScalarType} (basic : ty.isBasic)
    (component : ty.component? = some s) (plain : ty.isMatrix = false) :
    ∃ n, ty.lanes? = some (s, n) := by
  cases ty with
  | void | struct => simp [isBasic] at basic
  | matrix => simp [isMatrix] at plain
  | scalar | vector =>
    obtain rfl := Option.some.inj component
    exact ⟨_, rfl⟩

end Ty

namespace ScalarType

theorem isInteger_of_number {s : ScalarType} (number : s ≠ .bool) (h : ¬s.isFloating) :
    s.isInteger := by
  cases s <;> simp_all [isFloating, isInteger]

end ScalarType

namespace Build

open Builder

variable {xs : List Variable} {casts : Bool} {b b' : Builder}

theorem componentOf_eq {ty : Ty} {s : ScalarType} (h : ty.component? = some s) :
    componentOf ty = pure s := by
  rw [componentOf, h]

/-- A scalar stands for all components of a vector. -/
theorem broadcast_attains (hs : b.Sound xs casts) {x : Operand} {ty : Ty} {s : ScalarType} {n : Nat}
    (lanes : ty.lanes? = some (s, n)) (term : Ty.IsTerm s ty x.ty) (hx : b.Typed x.id x.ty) :
    (broadcast x ty).Attains xs casts b fun id b' => b'.Typed id ty := by
  unfold broadcast
  split
  · rename_i hvector
    obtain ⟨hscalar, hvector⟩ := Bool.and_eq_true_iff.mp hvector
    rcases term with h | h
    · rw [h] at hscalar
      cases ty <;> simp [Ty.isScalar, Ty.isVector] at hscalar hvector
    · exact splat_attains hs lanes (h ▸ hx)
  · rename_i hvector
    refine .pure hs ?_
    rcases term with h | h
    · exact h ▸ hx
    · cases ty with
      | void | matrix | struct => simp [Ty.lanes?] at lanes
      | scalar s' =>
        obtain ⟨rfl, -⟩ := Prod.mk.inj (Option.some.inj lanes)
        exact h ▸ hx
      | vector => simp [h, Ty.isScalar, Ty.isVector] at hvector

/-- An operation on two terms component by component. A scalar beside a vector is repeated first, so
    both operands have the form of the result. -/
theorem componentwise_attains (hs : b.Sound xs casts) {op : Opcode} {k : Kind} {l r : Operand}
    {ty : Ty} {s : ScalarType} {n : Nat} (form : op.uniform? = some (k, 2))
    (lanes : ty.lanes? = some (s, n)) (kind : k.admits s) (left : Ty.IsTerm s ty l.ty)
    (right : Ty.IsTerm s ty r.ty) (hl : b.Typed l.id l.ty) (hr : b.Typed r.id r.ty) :
    (componentwise op ty l r).Attains xs casts b fun id b' => b'.Typed id ty := by
  refine (broadcast_attains hs lanes left hl).bind fun x b₁ hgrows₁ hs₁ hx => ?_
  refine (broadcast_attains hs₁ lanes right (hr.mono hgrows₁.includes)).bind
    fun y b₂ hgrows₂ hs₂ hy => ?_
  refine emit_uniform hs₂ form lanes kind ?_
  simpa using ⟨hx.mono hgrows₂.includes, hy⟩

/-- The opcode of a product component by component. -/
theorem mulOpcode_form {s : ScalarType} (number : s ≠ .bool) : ∃ k : Kind, k.admits s ∧
    (if s.isFloating then Opcode.fMul else .iMul).uniform? = some (k, 2) := by
  split
  · rename_i hfloating
    exact ⟨.floating, hfloating, rfl⟩
  · rename_i hfloating
    exact ⟨.integer, ScalarType.isInteger_of_number number hfloating, rfl⟩

/-- Products of vectors and scalars, where the opcode of linear algebra is only for floating
    components. -/
theorem product_vectorScalar (s : ScalarType) (n : Dim) (x y : Id) :
    product (.vector s n) ⟨x, .vector s n⟩ ⟨y, .scalar s⟩ =
      if s.isFloating then emit .vectorTimesScalar (.vector s n) [x, y]
      else componentwise (if s.isFloating then .fMul else .iMul) (.vector s n)
        ⟨x, .vector s n⟩ ⟨y, .scalar s⟩ := rfl

theorem product_scalarVector (s : ScalarType) (n : Dim) (x y : Id) :
    product (.vector s n) ⟨x, .scalar s⟩ ⟨y, .vector s n⟩ =
      if s.isFloating then emit .vectorTimesScalar (.vector s n) [y, x]
      else componentwise (if s.isFloating then .fMul else .iMul) (.vector s n)
        ⟨x, .scalar s⟩ ⟨y, .vector s n⟩ := rfl

/-- Products of terms, of which no two are matrices. A matrix or a vector times a scalar has an
    opcode of its own where components float. -/
theorem product_terms_attains (hs : b.Sound xs casts) {l r : Operand} {ty : Ty} {s : ScalarType}
    (number : s ≠ .bool) (component : ty.component? = some s)
    (left : Ty.IsTerm s ty l.ty) (right : Ty.IsTerm s ty r.ty)
    (any : l.ty = ty ∨ r.ty = ty) (plain : ¬(l.ty.isMatrix ∧ r.ty.isMatrix))
    (floating : ty.isMatrix → s.isFloating) (hl : b.Typed l.id l.ty) (hr : b.Typed r.id r.ty) :
    (product ty l r).Attains xs casts b fun id b' => b'.Typed id ty := by
  obtain ⟨k, hk, hform⟩ := mulOpcode_form number
  obtain ⟨x, lty⟩ := l
  obtain ⟨y, rty⟩ := r
  dsimp only at left right any plain hl hr
  have hplain {n : Nat} (lanes : ty.lanes? = some (s, n)) :=
    componentwise_attains hs (l := ⟨x, lty⟩) (r := ⟨y, rty⟩) hform lanes hk left right hl hr
  cases ty with
  | void | struct => simp [Ty.component?] at component
  | scalar s' =>
    obtain rfl := Option.some.inj component
    obtain rfl : lty = .scalar s' := by rcases left with h | h <;> exact h
    obtain rfl : rty = .scalar s' := by rcases right with h | h <;> exact h
    exact hplain rfl
  | vector s' n =>
    obtain rfl := Option.some.inj component
    rcases left with rfl | rfl
    · rcases right with rfl | rfl
      · exact hplain rfl
      · rw [product_vectorScalar]
        by_cases hfloating : s'.isFloating
        · rw [if_pos hfloating]
          exact emit_vectorTimesScalar hs hfloating hl hr
        · rw [if_neg hfloating]
          exact hplain rfl
    · rcases right with rfl | rfl
      · rw [product_scalarVector]
        by_cases hfloating : s'.isFloating
        · rw [if_pos hfloating]
          exact emit_vectorTimesScalar hs hfloating hr hl
        · rw [if_neg hfloating]
          exact hplain rfl
      · simp at any
  | matrix s' columns rows =>
    obtain rfl := Option.some.inj component
    have hfloating : s'.isFloating := floating rfl
    rcases left with rfl | rfl
    · rcases right with rfl | rfl
      · exact absurd ⟨rfl, rfl⟩ plain
      · exact emit_matrixTimesScalar hs hfloating hl hr
    · rcases right with rfl | rfl
      · exact emit_matrixTimesScalar hs hfloating hr hl
      · simp at any

/-- A product of linear algebra, or else one of terms. Both operands have the common component type
    already, and it floats where a matrix takes part. -/
theorem product_attains (hs : b.Sound xs casts) {left right ty : Ty} {s : ScalarType}
    {l r : Operand} (number : s ≠ .bool) (shape : Operator.ProductShape s left right ty)
    (floating : (left.isMatrix || right.isMatrix) → s.isFloating)
    (hlty : l.ty = left.withComponent s) (hrty : r.ty = right.withComponent s)
    (hl : b.Typed l.id l.ty) (hr : b.Typed r.id r.ty) :
    (product ty l r).Attains xs casts b fun id b' => b'.Typed id ty := by
  cases shape with
  | matrices =>
    obtain ⟨x, lty⟩ := l
    obtain ⟨y, rty⟩ := r
    subst hlty hrty
    exact emit_matrixTimesMatrix hs (floating rfl) hl hr
  | matrixVector =>
    obtain ⟨x, lty⟩ := l
    obtain ⟨y, rty⟩ := r
    subst hlty hrty
    exact emit_matrixTimesVector hs (floating rfl) hl hr
  | vectorMatrix =>
    obtain ⟨x, lty⟩ := l
    obtain ⟨y, rty⟩ := r
    subst hlty hrty
    exact emit_vectorTimesMatrix hs (floating rfl) hl hr
  | terms shape plain =>
    obtain ⟨hleft, hright⟩ := shape.terms
    have hmatrix {t : Ty} : (t.withComponent s).isMatrix = t.isMatrix := by
      cases t <;> rfl
    refine product_terms_attains hs number shape.component (hlty ▸ hleft) (hrty ▸ hright)
      (hlty ▸ hrty ▸ shape.any) ?_ ?_ hl hr
    · rw [hlty, hrty, hmatrix, hmatrix]
      exact plain
    · intro hty
      refine floating ?_
      rcases shape.any with h | h
      · rw [← h, hmatrix] at hty
        simp [hty]
      · rw [← h, hmatrix] at hty
        simp [hty]

/-- A column of a matrix, or a scalar that stands for all columns and was repeated to one. -/
theorem columnPart_attains (hs : b.Sound xs casts) {s : ScalarType} {columns rows : Dim}
    {repeated : Option Id} {x : Operand} {i : Nat} (hi : i < columns.toNat)
    (hrepeated : ∀ id, repeated = some id → b.Typed id (.vector s rows))
    (hx : repeated = none → b.Typed x.id (.matrix s columns rows)) :
    (columnPart repeated (.vector s rows) x.id i).Attains xs casts b
      fun id b' => b'.Typed id (.vector s rows) := by
  cases repeated with
  | some id => exact .pure hs (hrepeated id rfl)
  | none => exact emit_column hs hi (hx rfl)

theorem perColumn_matrix [Limits] (op : Opcode) (s : ScalarType) (columns rows : Dim) (l r : Operand) :
    perColumn op (.matrix s columns rows) l r = (do
      let left ← repeatedColumn (.vector s rows) l
      let right ← repeatedColumn (.vector s rows) r
      let parts ← (List.range columns.toNat).mapM fun i => do
        let a ← columnPart left (.vector s rows) l.id i
        let b ← columnPart right (.vector s rows) r.id i
        emit op (.vector s rows) [a, b]
      emit .compositeConstruct (.matrix s columns rows) parts) := rfl

/-- Columns are repeated for a scalar only. This is done once, in front of the columns of the
    result. -/
theorem repeatedColumn_attains (hs : b.Sound xs casts) {s : ScalarType} {columns rows : Dim}
    {x : Operand} (term : Ty.IsTerm s (.matrix s columns rows) x.ty) (hx : b.Typed x.id x.ty) :
    (repeatedColumn (.vector s rows) x).Attains xs casts b fun repeated b' =>
      (∀ id, repeated = some id → b'.Typed id (.vector s rows)) ∧
        (repeated = none → b'.Typed x.id (.matrix s columns rows)) := by
  unfold repeatedColumn
  rcases term with h | h
  · rw [h]
    refine .pure hs ⟨by simp, fun _ => h ▸ hx⟩
  · rw [h]
    have hsplat : (splat x.id (.vector s rows)).Attains xs casts b
        fun id b' => b'.Typed id (.vector s rows) := splat_attains hs rfl (h ▸ hx)
    refine hsplat.bind (f := fun id => pure (some id)) fun id b₁ _ hs₁ hid => ?_
    exact .pure hs₁ ⟨fun id' hid' => Option.some.inj hid' ▸ hid, by simp⟩

theorem perColumn_attains (hs : b.Sound xs casts) {op : Opcode} {k : Kind} {l r : Operand}
    {s : ScalarType} {columns rows : Dim} (form : op.uniform? = some (k, 2)) (kind : k.admits s)
    (allowed : (Ty.matrix s columns rows).isAllowed casts)
    (left : Ty.IsTerm s (.matrix s columns rows) l.ty)
    (right : Ty.IsTerm s (.matrix s columns rows) r.ty)
    (hl : b.Typed l.id l.ty) (hr : b.Typed r.id r.ty) :
    (perColumn op (.matrix s columns rows) l r).Attains xs casts b
      fun id b' => b'.Typed id (.matrix s columns rows) := by
  rw [perColumn_matrix]
  refine (repeatedColumn_attains hs left hl).bind fun x b₁ hgrows₁ hs₁ ⟨hx, hx'⟩ => ?_
  refine (repeatedColumn_attains hs₁ right (hr.mono hgrows₁.includes)).bind
    fun y b₂ hgrows₂ hs₂ ⟨hy, hy'⟩ => ?_
  refine (mapM_typed (t := .vector s rows) hs₂ fun i hi b₃ hgrows₃ hs₃ => ?_).bind
    fun ids b₃ hgrows₃ hs₃ hids => ?_
  · have hi : i < columns.toNat := List.mem_range.mp hi
    have hgrows := hgrows₂.trans hgrows₃
    refine (columnPart_attains hs₃ hi (fun id h => (hx id h).mono hgrows.includes)
      fun h => (hx' h).mono hgrows.includes).bind fun u b₄ hgrows₄ hs₄ hu => ?_
    have hgrows' := hgrows₃.trans hgrows₄
    refine (columnPart_attains hs₄ hi (fun id h => (hy id h).mono hgrows'.includes)
      fun h => (hy' h).mono hgrows'.includes).bind fun v b₅ hgrows₅ hs₅ hv => ?_
    refine emit_uniform hs₅ form rfl kind ?_
    simpa using ⟨hu.mono hgrows₅.includes, hv⟩
  · rw [List.length_range] at hids
    exact emit_construct hs₃ allowed rfl hids

theorem reciprocal_matrix [Limits] (s : ScalarType) (columns rows : Dim) (x : Id) :
    reciprocal ⟨x, .matrix s columns rows⟩ = (do
      let ones ← oneId (.vector s rows)
      let parts ← (List.range columns.toNat).mapM fun i => do
        let c ← columnPart none (.vector s rows) x i
        emit .fDiv (.vector s rows) [ones, c]
      emit .compositeConstruct (.matrix s columns rows) parts) := rfl

/-- One over a matrix or a scalar, component by component: a division by a matrix multiplies with
    it. -/
theorem reciprocal_attains (hs : b.Sound xs casts) {x : Operand} {s : ScalarType}
    {columns rows : Dim} (floating : s.isFloating)
    (term : Ty.IsTerm s (.matrix s columns rows) x.ty) (hx : b.Typed x.id x.ty) :
    (reciprocal x).Attains xs casts b fun id b' => b'.Typed id x.ty := by
  obtain ⟨x, ty⟩ := x
  dsimp only at term hx ⊢
  rcases term with rfl | rfl
  · have hproper : (Ty.matrix s columns rows).isProper := floating
    rw [reciprocal_matrix]
    refine (oneId_attains hs (show (Ty.vector s rows).isAllowed casts from rfl)).bind
      fun ones b₁ hgrows₁ hs₁ hones => ?_
    refine (mapM_typed (t := .vector s rows) hs₁ fun i hi b₂ hgrows₂ hs₂ => ?_).bind
      fun ids b₂ hgrows₂ hs₂ hids => ?_
    · have hi : i < columns.toNat := List.mem_range.mp hi
      have hx₂ := hx.mono (hgrows₁.trans hgrows₂).includes
      refine (emit_column hs₂ hi hx₂).bind fun c b₃ hgrows₃ hs₃ hc => ?_
      refine emit_uniform (k := .floating) hs₃ rfl rfl floating ?_
      simpa using ⟨hones.mono (hgrows₂.trans hgrows₃).includes, hc⟩
    · rw [List.length_range] at hids
      exact emit_construct hs₂ (Ty.isAllowed_of_isProper casts hproper) rfl hids
  · refine (oneId_attains hs (show (Ty.scalar s).isAllowed casts from rfl)).bind
      fun one b₁ hgrows₁ hs₁ hone => ?_
    refine emit_uniform (k := .floating) hs₁ rfl rfl floating ?_
    simpa using ⟨hone, hx.mono hgrows₁.includes⟩

theorem matrixDivision_attains (hs : b.Sound xs casts) {l r : Operand} {s : ScalarType}
    {columns rows : Dim} (floating : s.isFloating)
    (left : Ty.IsTerm s (.matrix s columns rows) l.ty)
    (right : Ty.IsTerm s (.matrix s columns rows) r.ty)
    (any : l.ty = .matrix s columns rows ∨ r.ty = .matrix s columns rows)
    (hl : b.Typed l.id l.ty) (hr : b.Typed r.id r.ty) :
    (matrixDivision (.matrix s columns rows) l r).Attains xs casts b
      fun id b' => b'.Typed id (.matrix s columns rows) := by
  have hproper : (Ty.matrix s columns rows).isProper := floating
  refine (reciprocal_attains hs floating right hr).bind fun inverse b₁ hgrows₁ hs₁ hinverse => ?_
  have hl₁ := hl.mono hgrows₁.includes
  rcases left with hleft | hleft
  · rw [hleft] at hl₁ ⊢
    rcases right with hright | hright
    · rw [hright]
      rw [hright] at hinverse
      exact perColumn_attains hs₁ (show Opcode.fMul.uniform? = some (.floating, 2) from rfl) floating
        (Ty.isAllowed_of_isProper casts hproper) (.inl hleft) (.inl rfl) (hleft ▸ hl₁) hinverse
    · rw [hright]
      exact emit_matrixTimesScalar hs₁ floating hl₁ (hright ▸ hinverse)
  · have hright : r.ty = .matrix s columns rows := by
      rcases any with h | h
      · simp [hleft] at h
      · exact h
    rw [hleft] at hl₁ ⊢
    exact emit_matrixTimesScalar hs₁ floating (hright ▸ hinverse) hl₁

end Build

end ShaderExpr
