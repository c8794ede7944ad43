import ShaderExpr.Proofs.Running.Conversion

namespace ShaderExpr

open Folding Build

namespace Machine

variable {M : Machine} {ty column : Ty} {s : ScalarType} {x y : Datum} {f g h : Nat → Scalar}
  {o : Opcode} {op : Operator} {l r v w : Value}

theorem combine?_of_ok {a b c : Scalar} (h : combine op a b = .ok c) :
    combine? op a b = some c := by
  rw [combine?, h]
  rfl

theorem combine?_mul_comm (a b : Scalar) : combine? .mul a b = combine? .mul b a := by
  unfold combine? combine
  cases a <;> cases b <;> first
    | rfl
    | simp only [Binary32.mul_comm, Binary64.mul_comm, Int32.mul_comm, UInt32.mul_comm]

/-- Opcodes for the arithmetic of an operator. -/
def IsArithmetic (o : Opcode) (op : Operator) : Prop :=
  ∀ ty x y, known? o ty [x, y] [] = arithmetic? op ty x y

theorem perform_arithmetic (basic : ty.isBasic) (ho : IsArithmetic o op)
    (hx : ∀ i < ty.componentCount, x.cell? i = some (f i))
    (hy : ∀ i < ty.componentCount, y.cell? i = some (g i))
    (hc : ∀ i < ty.componentCount, combine op (f i) (g i) = .ok (h i)) :
    M.perform o ty [x, y] [] = ty.build h := by
  refine perform_eq basic ((ho ty x y).trans (Ty.fill?_eq_build fun i hi => ?_))
  rw [hx i hi, hy i hi]
  exact combine?_of_ok (hc i hi)

/-- Opcodes that multiply every component by the same one. -/
def IsScaling (o : Opcode) : Prop :=
  ∀ ty x k, known? o ty [x, k] [] = scaled? ty x k

theorem perform_scaled (basic : ty.isBasic) (ho : IsScaling o) {k : Scalar}
    (hx : ∀ i < ty.componentCount, x.cell? i = some (f i)) (hy : y.cell? 0 = some k)
    (hc : ∀ i < ty.componentCount, combine? .mul (f i) k = some (h i)) :
    M.perform o ty [x, y] [] = ty.build h := by
  refine perform_eq basic ((ho ty x y).trans (Ty.fill?_eq_build fun i hi => ?_))
  rw [hx i hi, hy]
  exact hc i hi

theorem term_of_eq (hty : v.ty = ty) {i : Nat} (hi : i < ty.componentCount) :
    term v i = v.cell i := by
  unfold term
  split
  · rename_i hone
    rw [hty] at hone
    rw [show i = 0 by omega]
  · rfl

theorem term_of_scalar (hty : v.ty = .scalar s) (i : Nat) : term v i = v.cell 0 := by
  rw [term, hty]
  rfl

/-- A term that stands for all components is repeated in a vector. -/
theorem cell?_broadcast (hs : ty.component? = some s) (flat : ty.isMatrix = false)
    (hv : Ty.IsTerm s ty v.ty) {i : Nat} (hi : i < ty.componentCount) :
    (broadcast ⟨v.datum, v.ty⟩ ty).cell? i = some (term v i) := by
  have basic := Ty.isBasic_of_component? hs
  unfold broadcast
  dsimp only
  rcases hv with hty | hty
  · have hplain : (v.ty.isScalar && ty.isVector) = false := by
      rw [hty]
      cases ty <;> rfl
    rw [hplain, term_of_eq hty hi]
    exact Value.cell?_datum (hty ▸ basic) (hty ▸ hi)
  · rw [term_of_scalar hty, datum_of_scalar hty]
    split
    · rw [splat_eq_build basic flat, Ty.cell?_build basic hi]
    · rename_i hplain
      have hscalar : i = 0 := by
        rw [hty] at hplain
        cases ty with
        | scalar => exact Nat.lt_one_iff.mp hi
        | void | struct => simp [Ty.isBasic] at basic
        | matrix => simp [Ty.isMatrix] at flat
        | vector => simp [Ty.isScalar, Ty.isVector] at hplain
      rw [hscalar]
      rfl

theorem componentwise_datum (ho : IsArithmetic o op) (hs : ty.component? = some s)
    (flat : ty.isMatrix = false) (hl : Ty.IsTerm s ty l.ty) (hr : Ty.IsTerm s ty r.ty)
    (hc : ∀ i < ty.componentCount, combine op (term l i) (term r i) = .ok (h i)) :
    M.componentwise o ty ⟨l.datum, l.ty⟩ ⟨r.datum, r.ty⟩ = ty.build h :=
  perform_arithmetic (Ty.isBasic_of_component? hs) ho (fun _ => cell?_broadcast hs flat hl)
    (fun _ => cell?_broadcast hs flat hr) hc

/-- What is combined in a column of a matrix. -/
theorem cell?_columnPart {columns rows : Dim} (hv : Ty.IsTerm s (.matrix s columns rows) v.ty)
    {c i : Nat} (hc : c < columns.toNat) (hi : i < rows.toNat) :
    (columnPart (repeatedColumn (.vector s rows) ⟨v.datum, v.ty⟩) v.datum c).cell? i =
      some (term v (c * rows.toNat + i)) := by
  rcases hv with hty | hty
  · have hrepeated : repeatedColumn (.vector s rows) ⟨v.datum, v.ty⟩ = none := by
      unfold repeatedColumn
      dsimp only
      rw [hty]
      rfl
    rw [hrepeated, term_of_eq hty (lt_count_of_position hc hi)]
    exact (congrArg (Datum.cell? · i) (part_datum hty hc)).trans
      (Ty.cell?_build (show (Ty.vector s rows).isBasic from rfl) hi)
  · have hrepeated : repeatedColumn (.vector s rows) ⟨v.datum, v.ty⟩ =
        some ((Ty.vector s rows).build fun _ => v.cell 0) := by
      unfold repeatedColumn
      dsimp only
      rw [hty, datum_of_scalar hty, splat_eq_build rfl rfl]
      rfl
    rw [hrepeated, term_of_scalar hty]
    exact Ty.cell?_build (show (Ty.vector s rows).isBasic from rfl) hi

theorem perColumn_datum (ho : IsArithmetic o op) {columns rows : Dim}
    (hl : Ty.IsTerm s (.matrix s columns rows) l.ty)
    (hr : Ty.IsTerm s (.matrix s columns rows) r.ty)
    (hc : ∀ i < columns.toNat * rows.toNat, combine op (term l i) (term r i) = .ok (h i)) :
    M.perColumn o (.matrix s columns rows) ⟨l.datum, l.ty⟩ ⟨r.datum, r.ty⟩ =
      (Ty.matrix s columns rows).build h := by
  rw [← combined_matrix]
  refine congrArg (combined (.matrix s columns rows)) (List.map_congr_left fun c hcolumn => ?_)
  have hcolumn := List.mem_range.mp hcolumn
  refine perform_arithmetic rfl ho (fun i hi => cell?_columnPart hl hcolumn hi)
    (fun i hi => cell?_columnPart hr hcolumn hi) fun i hi => hc _ (lt_count_of_position hcolumn hi)

/-- Terms are combined component by component, in columns for a matrix. -/
theorem terms_datum (ho : IsArithmetic o op) (hs : ty.component? = some s)
    (hl : Ty.IsTerm s ty l.ty) (hr : Ty.IsTerm s ty r.ty)
    (hv : Folding.componentwise op ty l r = .ok v) :
    (if ty.isMatrix then M.perColumn o ty ⟨l.datum, l.ty⟩ ⟨r.datum, r.ty⟩
      else M.componentwise o ty ⟨l.datum, l.ty⟩ ⟨r.datum, r.ty⟩) = v.datum := by
  have hcells (i : Nat) (hi : i < ty.componentCount) :
      combine op (term l i) (term r i) = .ok (v.cell i) := cell_of_componentwise hs hl hr hv hi
  rw [Value.datum_eq_build_of_ty (ty_of_componentwise hv) (Ty.isBasic_of_component? hs)]
  split
  · rename_i hmatrix
    cases ty with
    | void | scalar | vector | struct => simp [Ty.isMatrix] at hmatrix
    | matrix s' columns rows =>
      obtain rfl : s' = s := Option.some.inj hs
      exact perColumn_datum ho hl hr hcells
  · rename_i hmatrix
    exact componentwise_datum ho hs (by simpa using hmatrix) hl hr hcells

theorem isArithmetic_mul (floating : Bool) :
    IsArithmetic (if floating then .fMul else .iMul) .mul := by
  cases floating <;> exact fun _ _ _ => rfl

theorem isArithmetic_of_arithmeticOpcode? (h : arithmeticOpcode? op s = some o) :
    IsArithmetic o op := by
  cases op <;> cases s <;>
    simp only [arithmeticOpcode?, Option.some.injEq, reduceCtorEq] at h <;> subst h <;>
    exact fun _ _ _ => rfl

theorem foldlM_toOption {α β : Type} {step : β → α → Except Unfolded β} {step' : β → α → Option β} :
    ∀ {as : List α} {b c : β}, (∀ a ∈ as, ∀ b c, step b a = .ok c → step' b a = some c) →
      as.foldlM step b = .ok c → as.foldlM step' b = some c
  | [], _, _, _, h => congrArg some (Except.ok.inj h)
  | a :: as, b, c, hsteps, h => by
    rw [List.foldlM_cons] at h ⊢
    obtain ⟨next, hnext, h⟩ := Except.bind_eq_ok.mp h
    rw [hsteps a List.mem_cons_self b next hnext]
    exact foldlM_toOption (fun a' ha' => hsteps a' (List.mem_cons_of_mem a ha')) h

variable {rows inner columns row column' i : Nat} {c : Scalar}

/-- The sum over a row and a column is the same for data. -/
theorem contraction?_datum (hl : l.ty.component? = some s) (hr : r.ty.component? = some s)
    (left : l.ty.componentCount = inner * rows) (right : r.ty.componentCount = columns * inner)
    (hrow : row < rows) (hcolumn : column' < columns)
    (h : contraction s l r rows inner row column' = .ok c) :
    contraction? s l.datum r.datum rows inner row column' = some c := by
  refine foldlM_toOption (fun k hk sum next hnext => ?_) h
  have hk := List.mem_range.mp hk
  obtain ⟨x, hx, hnext⟩ := Except.bind_eq_ok.mp hnext
  obtain ⟨y, hy, hnext⟩ := Except.bind_eq_ok.mp hnext
  obtain ⟨z, hz, hnext⟩ := Except.bind_eq_ok.mp hnext
  rw [Value.cell?_datum (Ty.isBasic_of_component? hl) (left ▸ lt_count_of_position hk hrow),
    Value.cell?_datum (Ty.isBasic_of_component? hr) (right ▸ lt_count_of_position hcolumn hk),
    cell_of_component hx, cell_of_component hy]
  change (combine? .mul x y).bind (combine? .add sum) = some next
  rw [combine?_of_ok hz, Option.bind_some, combine?_of_ok hnext]

theorem product?_datum (hs : ty.component? = some s) (hl : l.ty.component? = some s)
    (hr : r.ty.component? = some s) (left : extent true l.ty = some (rows, inner))
    (right : extent false r.ty = some (inner, columns))
    (hleft : l.ty.componentCount = inner * rows) (hright : r.ty.componentCount = columns * inner)
    (count : ty.componentCount = columns * rows) (h : Folding.product s ty l r = .ok v) :
    product? ty rows inner l.datum r.datum = some v.datum := by
  rw [product?, hs, Option.bind_some,
    Value.datum_eq_build_of_ty (ty_of_product h) (Ty.isBasic_of_component? hs)]
  refine Ty.fill?_eq_build fun i hi => ?_
  have hrows : 0 < rows := Nat.pos_of_ne_zero fun hzero => by
    rw [count, hzero, Nat.mul_zero] at hi
    exact Nat.not_lt_zero i hi
  exact contraction?_datum hl hr hleft hright (Nat.mod_lt i hrows)
    ((Nat.div_lt_iff_lt_mul hrows).mpr (count ▸ hi))
    (cell_of_product hs left right count h hi)

theorem length_parts_matrix {columns rows : Dim} (hty : v.ty = .matrix s columns rows) :
    v.datum.parts.length = columns.toNat ∧ (v.datum.part 0).parts.length = rows.toNat := by
  have basic : v.ty.isBasic := by rw [hty]; rfl
  have hcolumns : 0 < columns.toNat := by cases columns <;> decide
  rw [part_datum hty hcolumns, Value.datum_eq_build basic, hty]
  simp [Ty.build, Datum.parts]

/-- Products of linear algebra. The sums over rows and columns are those that evaluation takes. -/
theorem product_datum_of_isLinear {left right : Ty} (shape : Operator.ProductShape s left right ty)
    (linear : isLinear l.ty r.ty) (hl : l.ty = left.withComponent s)
    (hr : r.ty = right.withComponent s) (hv : Folding.product s ty l r = .ok v) :
    M.product ty ⟨l.datum, l.ty⟩ ⟨r.datum, r.ty⟩ = v.datum := by
  have basic : ty.isBasic := Ty.isBasic_of_component? shape.component
  unfold product
  dsimp only
  cases shape with
  | matrices =>
    obtain ⟨hcolumns, hrows⟩ := length_parts_matrix hl
    rw [hl, hr]
    refine perform_eq basic ?_
    rw [known?, hcolumns, hrows]
    exact product?_datum rfl (by rw [hl]; rfl) (by rw [hr]; rfl) (by rw [hl]; rfl)
      (by rw [hr]; rfl) (by rw [hl]; rfl) (by rw [hr]; rfl) rfl hv
  | matrixVector =>
    obtain ⟨hcolumns, hrows⟩ := length_parts_matrix hl
    rw [hl, hr]
    refine perform_eq basic ?_
    rw [known?, hcolumns, hrows]
    exact product?_datum rfl (by rw [hl]; rfl) (by rw [hr]; rfl) (by rw [hl]; rfl)
      (by rw [hr]; rfl) (by rw [hl]; rfl) (by rw [hr]; exact (Nat.one_mul _).symm)
      (Nat.one_mul _).symm hv
  | @vectorMatrix _ _ columns rows =>
    have hlength : l.datum.parts.length = rows.toNat := by
      rw [Value.datum_eq_build (by rw [hl]; rfl), hl]
      simp [Ty.build, Ty.withComponent, Datum.parts]
    rw [hl, hr]
    refine perform_eq basic ?_
    rw [known?, hlength]
    exact product?_datum rfl (by rw [hl]; rfl) (by rw [hr]; rfl) (by rw [hl]; rfl)
      (by rw [hr]; rfl) (by rw [hl]; exact (Nat.mul_one _).symm) (by rw [hr]; rfl)
      (Nat.mul_one _).symm hv
  -- of these, none is a product of linear algebra
  | terms shape plain =>
    exfalso
    rw [hl, hr] at linear
    cases shape with
    | same basic shapes =>
      cases left <;> cases right <;> simp_all [isLinear, Ty.withComponent, Ty.isMatrix, Ty.isVector]
    | scalarLeft => simp [isLinear, Ty.withComponent, Ty.isMatrix, Ty.isVector] at linear
    | scalarRight => simp [isLinear, Ty.withComponent, Ty.isMatrix, Ty.isVector] at linear

theorem isScaling_vectorTimesScalar : IsScaling .vectorTimesScalar := fun _ _ _ => rfl

theorem isScaling_matrixTimesScalar : IsScaling .matrixTimesScalar := fun _ _ _ => rfl

/-- Every component of a value times a scalar. For evaluation the scalar is a term that is repeated,
    as `hc` says. -/
theorem scaled_datum (ho : IsScaling o) (hs : ty.component? = some s) (hl : l.ty = ty)
    (hr : r.ty = .scalar s)
    (hc : ∀ i < ty.componentCount, combine? .mul (term l i) (term r i) = some (h i)) :
    M.perform o ty [l.datum, r.datum] [] = ty.build h := by
  have basic := Ty.isBasic_of_component? hs
  refine perform_scaled basic ho (f := l.cell) (k := r.cell 0) (fun i hi => ?_) ?_ fun i hi => ?_
  · exact Value.cell?_datum (hl ▸ basic) (hl ▸ hi)
  · rw [datum_of_scalar hr]
    rfl
  · rw [← term_of_eq hl hi, ← term_of_scalar hr i]
    exact hc i hi

/-- The product of a value and a scalar. -/
theorem scaled_datum_of_right (ho : IsScaling o) (hs : ty.component? = some s) (hl : l.ty = ty)
    (hr : r.ty = .scalar s) (hv : Folding.componentwise .mul ty l r = .ok v) :
    M.perform o ty [l.datum, r.datum] [] = v.datum := by
  rw [Value.datum_eq_build_of_ty (ty_of_componentwise hv) (Ty.isBasic_of_component? hs)]
  exact scaled_datum ho hs hl hr fun i hi =>
    combine?_of_ok (cell_of_componentwise hs (.inl hl) (.inr hr) hv hi)

/-- The product of a scalar and a value: the order of the factors does not matter. -/
theorem scaled_datum_of_left (ho : IsScaling o) (hs : ty.component? = some s)
    (hl : l.ty = .scalar s) (hr : r.ty = ty) (hv : Folding.componentwise .mul ty l r = .ok v) :
    M.perform o ty [r.datum, l.datum] [] = v.datum := by
  rw [Value.datum_eq_build_of_ty (ty_of_componentwise hv) (Ty.isBasic_of_component? hs)]
  refine scaled_datum ho hs hr hl fun i hi => ?_
  rw [combine?_mul_comm]
  exact combine?_of_ok (cell_of_componentwise hs (.inr hl) (.inl hr) hv hi)

/-- Products that go component by component. -/
theorem product_datum_of_terms {left right : Ty} (shape : Operator.TermShape s left right ty)
    (plain : ¬isLinear l.ty r.ty) (hl : l.ty = left.withComponent s)
    (hr : r.ty = right.withComponent s) (hv : Folding.componentwise .mul ty l r = .ok v) :
    M.product ty ⟨l.datum, l.ty⟩ ⟨r.datum, r.ty⟩ = v.datum := by
  have hs := shape.component
  have hterms := shape.terms
  rw [← hl, ← hr] at hterms
  obtain ⟨hleft, hright⟩ := hterms
  have hplain (floating : Bool) (flat : ty.isMatrix = false) :
      M.componentwise (if floating then .fMul else .iMul) ty ⟨l.datum, l.ty⟩ ⟨r.datum, r.ty⟩ =
        v.datum := by
    rw [Value.datum_eq_build_of_ty (ty_of_componentwise hv) shape.basic]
    exact componentwise_datum (isArithmetic_mul floating) hs flat hleft hright fun i hi =>
      cell_of_componentwise hs hleft hright hv hi
  unfold product
  rw [hs, Option.map_some, Option.getD_some]
  dsimp only
  cases shape with
  | same basic shapes =>
    rw [← shapes] at hr
    rw [hl, hr] at hplain ⊢
    cases left with
    | void | struct => simp [Ty.isBasic] at basic
    | scalar | vector => exact hplain _ rfl
    -- matrices of one shape are not multiplied component by component
    | matrix =>
      rw [hl, hr] at plain
      exact absurd rfl plain
  | scalarLeft basic =>
    rw [hl, hr] at hplain ⊢
    cases right with
    | void | struct => simp [Ty.isBasic] at basic
    | scalar => exact hplain _ rfl
    | matrix => exact scaled_datum_of_left isScaling_matrixTimesScalar hs hl hr hv
    | vector =>
      dsimp only [Ty.withComponent]
      split
      · exact scaled_datum_of_left isScaling_vectorTimesScalar hs hl hr hv
      · exact hplain false rfl
  | scalarRight basic =>
    rw [hl, hr] at hplain ⊢
    cases left with
    | void | struct => simp [Ty.isBasic] at basic
    | scalar => exact hplain _ rfl
    | matrix => exact scaled_datum_of_right isScaling_matrixTimesScalar hs hl hr hv
    | vector =>
      dsimp only [Ty.withComponent]
      split
      · exact scaled_datum_of_right isScaling_vectorTimesScalar hs hl hr hv
      · exact hplain false rfl

theorem isArithmetic_fDiv : IsArithmetic .fDiv .div := fun _ _ _ => rfl

/-- One over every component. -/
theorem reciprocal_datum (hs : v.ty.component? = some s)
    (h : Folding.reciprocal s v = .ok w) : M.reciprocal ⟨v.datum, v.ty⟩ = w.datum := by
  have basic := Ty.isBasic_of_component? hs
  have hcells (i : Nat) (hi : i < v.ty.componentCount) :
      combine .div (.one s) (v.cell i) = .ok (w.cell i) := cell_of_reciprocal hs h hi
  unfold reciprocal
  dsimp only
  rw [Value.datum_eq_build_of_ty (ty_of_reciprocal h) basic]
  split
  · rename_i hmatrix
    cases hty : v.ty with
    | void | scalar | vector | struct => simp [hty, Ty.isMatrix] at hmatrix
    | matrix s' columns rows =>
      obtain rfl : s' = s := by simpa [hty, Ty.component?] using hs
      rw [← combined_matrix]
      refine congrArg (combined _) (List.map_congr_left fun c hc => ?_)
      have hc := List.mem_range.mp hc
      rw [oneDatum_eq_build rfl, part_datum hty hc]
      refine perform_arithmetic rfl isArithmetic_fDiv (fun i hi => Ty.cell?_build rfl hi)
        (fun i hi => Ty.cell?_build rfl hi) fun i hi => hcells _ ?_
      rw [hty]
      exact lt_count_of_position hc hi
  · rw [oneDatum_eq_build hs]
    exact perform_arithmetic basic isArithmetic_fDiv (fun i hi => Ty.cell?_build basic hi)
      (fun i hi => Value.cell?_datum basic hi) hcells

/-- Matrices are divided by, and divided, through the reciprocal. -/
theorem matrixDivision_datum (hs : ty.component? = some s) (hl : Ty.IsTerm s ty l.ty)
    (hr : Ty.IsTerm s ty r.ty) (any : l.ty.isMatrix || r.ty.isMatrix)
    (hw : Folding.reciprocal s r = .ok w) (hv : Folding.componentwise .mul ty l w = .ok v) :
    M.matrixDivision ty ⟨l.datum, l.ty⟩ ⟨r.datum, r.ty⟩ = v.datum := by
  have hrs : r.ty.component? = some s := by
    rcases hr with h | h <;> rw [h]
    · exact hs
    · rfl
  have hwty := ty_of_reciprocal hw
  rw [← hwty] at hr
  have hshape : ty.isMatrix := by
    rw [Bool.or_eq_true, ← hwty] at any
    rcases any with h | h
    · rcases hl with hl | hl <;> rw [hl] at h
      · exact h
      · simp [Ty.isMatrix] at h
    · rcases hr with hr | hr <;> rw [hr] at h
      · exact h
      · simp [Ty.isMatrix] at h
  unfold matrixDivision
  rw [reciprocal_datum hrs hw]
  dsimp only
  rw [← hwty] at any ⊢
  have hscalar {t : Ty} (h : t.isScalar) (ht : Ty.IsTerm s ty t) : t = .scalar s := by
    rcases ht with rfl | rfl
    · cases t <;> simp [Ty.isScalar, Ty.isMatrix] at h hshape
    · rfl
  have hwhole {t : Ty} (h : t.isScalar = false) (ht : Ty.IsTerm s ty t) : t = ty := by
    rcases ht with rfl | rfl
    · rfl
    · simp [Ty.isScalar] at h
  split
  · rename_i hleft
    have hlty := hscalar hleft hl
    rw [hlty, show (Ty.scalar s).isMatrix = false from rfl, Bool.false_or] at any
    have hrty : w.ty = ty := hwhole (by
      generalize w.ty = t at any
      cases t <;> simp [Ty.isMatrix, Ty.isScalar] at any ⊢) hr
    exact scaled_datum_of_left isScaling_matrixTimesScalar hs hlty hrty hv
  · rename_i hleft
    have hlty := hwhole (by simpa using hleft) hl
    split
    · rename_i hright
      exact scaled_datum_of_right isScaling_matrixTimesScalar hs hlty (hscalar hright hr) hv
    · cases ty with
      | void | scalar | vector | struct => simp [Ty.isMatrix] at hshape
      | matrix s' columns rows =>
        obtain rfl : s' = s := Option.some.inj hs
        rw [Value.datum_eq_build_of_ty (ty_of_componentwise hv) rfl]
        exact perColumn_datum (isArithmetic_mul true) hl hr fun i hi =>
          cell_of_componentwise rfl hl hr hv hi

/-- Sums, differences and quotients. -/
theorem arithmetic_datum (hop : op = .add ∨ op = .sub ∨ op = .div) (hs : ty.component? = some s)
    (hl : Ty.IsTerm s ty l.ty) (hr : Ty.IsTerm s ty r.ty)
    (hv : (if op = .div ∧ (l.ty.isMatrix || r.ty.isMatrix) then do
        Folding.componentwise .mul ty l (← Folding.reciprocal s r)
      else Folding.componentwise op ty l r) = .ok v) :
    M.arithmetic op ty ⟨l.datum, l.ty⟩ ⟨r.datum, r.ty⟩ = v.datum := by
  unfold arithmetic
  dsimp only
  split
  · rename_i hdivision
    rw [if_pos hdivision] at hv
    obtain ⟨w, hw, hv⟩ := Except.bind_eq_ok.mp hv
    exact matrixDivision_datum hs hl hr hdivision.2 hw hv
  · rename_i hplain
    rw [if_neg hplain] at hv
    obtain ⟨o, ho⟩ : ∃ o, arithmeticOpcode? op s = some o := by
      obtain rfl | rfl | rfl := hop <;> cases s <;> exact ⟨_, rfl⟩
    rw [hs, Option.bind_some, ho]
    exact terms_datum (isArithmetic_of_arithmeticOpcode? ho) hs hl hr hv

/-- Operands are brought to the component type of the result. Code converts the data as evaluation
    converts the values. -/
theorem inCommon_datum {l' r' : Value} (common : commonComponent l.ty r.ty = .ok s)
    (hl : operand s l = .ok l') (hr : operand s r = .ok r') (f : Quantity → Quantity → Datum) :
    M.inCommon (some s) ⟨l.datum, l.ty⟩ ⟨r.datum, r.ty⟩ f =
      f ⟨l'.datum, l'.ty⟩ ⟨r'.datum, r'.ty⟩ := by
  obtain ⟨_, _, hlc, hrc, -, -⟩ := commonComponent_eq_ok common
  rw [inCommon, Option.map_some, Option.getD_some,
    withComponent_datum (Ty.isBasic_of_component? hlc) hl,
    withComponent_datum (Ty.isBasic_of_component? hrc) hr]

theorem binary_datum_of_multiplication (common : commonComponent l.ty r.ty = .ok s)
    (shape : Operator.ProductShape s l.ty r.ty ty) (hv : Folding.binary .mul ty l r = .ok v) :
    M.binary .mul ty ⟨l.datum, l.ty⟩ ⟨r.datum, r.ty⟩ = v.datum := by
  obtain ⟨l', r', hl, hr, hlty, hrty⟩ := operands_total common
  rw [Folding.binary, shape.component] at hv
  simp only [hl, hr, bind, Except.bind, true_and, reduceCtorEq, false_and, if_false] at hv
  rw [binary]
  dsimp only [Operator.family]
  rw [shape.component, inCommon_datum common hl hr]
  split at hv
  · rename_i hlinear
    exact product_datum_of_isLinear shape hlinear hlty hrty hv
  · rename_i hplain
    rcases isLinear_of_productShape shape with hlinear | shape
    · exact absurd (hlty ▸ hrty ▸ hlinear) hplain
    · exact product_datum_of_terms shape hplain hlty hrty hv

theorem binary_datum_of_arithmetic (hfamily : op.family = .arithmetic)
    (common : commonComponent l.ty r.ty = .ok s) (shape : Operator.TermShape s l.ty r.ty ty)
    (hv : Folding.binary op ty l r = .ok v) :
    M.binary op ty ⟨l.datum, l.ty⟩ ⟨r.datum, r.ty⟩ = v.datum := by
  obtain ⟨l', r', hl, hr, hlty, hrty⟩ := operands_total common
  have hops : op = .add ∨ op = .sub ∨ op = .div := by
    revert hfamily
    cases op <;> simp [Operator.family]
  have hmul : op ≠ .mul := by
    rintro rfl
    simp at hops
  rw [Folding.binary, shape.component] at hv
  simp only [hl, hr, bind, Except.bind, hmul, false_and, if_false] at hv
  rw [binary, hfamily]
  dsimp only
  rw [shape.component, inCommon_datum common hl hr]
  exact arithmetic_datum hops shape.component (hlty ▸ shape.terms.1) (hrty ▸ shape.terms.2) hv

/-- The code of an operator that is evaluated gives what evaluation gives: arithmetic on data is
    that on values. -/
theorem binary_datum (hop : IsEvaluated op) (typed : op.resultType l.ty r.ty = .ok ty)
    (hv : Folding.binary op ty l r = .ok v) :
    M.binary op ty ⟨l.datum, l.ty⟩ ⟨r.datum, r.ty⟩ = v.datum := by
  have htyped := Operator.resultType_typed typed
  rcases hop with hfamily | hfamily
  · obtain rfl : op = .mul := by
      revert hfamily
      cases op <;> simp [Operator.family]
    rw [hfamily] at htyped
    cases htyped with
    | multiplication number common shape => exact binary_datum_of_multiplication common shape hv
    | integer integral => simp at integral
  · rw [hfamily] at htyped
    cases htyped with
    | arithmetic number common shape => exact binary_datum_of_arithmetic hfamily common shape hv
    | integer integral => simp at integral

theorem perform_opposite (basic : ty.isBasic) (floating : Bool)
    (hx : ∀ i < ty.componentCount, x.cell? i = some (f i))
    (hc : ∀ i < ty.componentCount, opposite (f i) = .ok (h i)) :
    M.perform (if floating then .fNegate else .sNegate) ty [x] [] = ty.build h := by
  have hknown : known? (if floating then .fNegate else .sNegate) ty [x] [] =
      ty.fill? fun i => (x.cell? i).bind opposite? := by cases floating <;> rfl
  refine perform_eq basic (hknown.trans (Ty.fill?_eq_build fun i hi => ?_))
  rw [hx i hi]
  exact congrArg Except.toOption (hc i hi)

/-- The code of a negation gives what evaluation gives. -/
theorem negation_datum (basic : v.ty.isBasic) (hw : Folding.negation v = .ok w) :
    M.negation ⟨v.datum, v.ty⟩ = w.datum := by
  have hcells (i : Nat) (hi : i < v.ty.componentCount) :
      opposite (v.cell i) = .ok (w.cell i) := cell_of_negation basic hw hi
  unfold negation
  dsimp only
  rw [Value.datum_eq_build_of_ty (ty_of_negation hw) basic]
  split
  · rename_i hmatrix
    cases hty : v.ty with
    | void | scalar | vector | struct => simp [hty, Ty.isMatrix] at hmatrix
    | matrix s columns rows =>
      rw [← combined_matrix]
      refine congrArg (combined _) (List.map_congr_left fun c hc => ?_)
      have hc := List.mem_range.mp hc
      rw [part_datum hty hc]
      refine perform_opposite rfl _ (fun i hi => Ty.cell?_build rfl hi) fun i hi => hcells _ ?_
      rw [hty]
      exact lt_count_of_position hc hi
  · exact perform_opposite basic _ (fun i hi => Value.cell?_datum basic hi) hcells

end Machine

end ShaderExpr
