import ShaderExpr.Proofs.Collections
import ShaderExpr.Proofs.Running.Cells
import ShaderExpr.Proofs.Value.Canonical

namespace ShaderExpr

/-- The product of two constants, of the type that the check of products gives to it. -/
def Value.product? (left right : Value) : Option Value :=
  (Operator.mul.resultType left.ty right.ty).toOption.bind fun ty =>
    (Expr.binary .mul ty (.constant left) (.constant right)).constant?.toOption.join

/-- Sum of the first `n` products of components, from zero on and from the left to the right. The
    components are converted to the type that the sum is in. -/
def Folding.dot (s : ScalarType) (x y : Nat → Option Scalar) : Nat → Option Scalar
  | 0 => some (.zero s)
  | n + 1 => do
    let sum ← dot s x y n
    let term ← (combine .mul ((← x n).convert s) ((← y n).convert s)).toOption
    (combine .add sum term).toOption

/-- Elements follow each other without gaps and share the component type. -/
theorem Ty.stride_of_element? {ty t : Ty} (h : ty.element? = some t) :
    ∃ s, ty.component? = some s ∧ t.component? = some s ∧ ty.stride = s.size * t.componentCount ∧
      ty.componentCount = ty.length * t.componentCount := by
  cases ty with
  | void | scalar | struct => simp [element?] at h
  | vector s n =>
    obtain rfl := Option.some.inj h
    exact ⟨s, rfl, rfl, (Nat.mul_one _).symm, (Nat.mul_one _).symm⟩
  | matrix s columns rows =>
    obtain rfl := Option.some.inj h
    exact ⟨s, rfl, rfl, rfl, rfl⟩

namespace Value

variable {v w : Value} {s : ScalarType} {ty t : Ty} {i : Nat}

/-- An element has its components one behind the other. -/
theorem element?_total (hty : v.ty = ty) (ht : ty.element? = some t) (hi : i < ty.length) :
    ∃ w, v.element? i = some w ∧ w.ty = t ∧
      ∀ k < t.componentCount, w.get? k = v.get? (i * t.componentCount + k) := by
  subst hty
  obtain ⟨s, hs, hts, hstride, hcount⟩ := Ty.stride_of_element? ht
  have hlength : ((v.data.drop (i * v.ty.stride)).take v.ty.stride).length = t.size := by
    have hsize : v.data.length = v.ty.length * v.ty.stride := by
      rw [v.size_eq, size_of_component? hs, hcount, hstride, Nat.mul_left_comm]
    have hle : (i + 1) * v.ty.stride ≤ v.data.length := hsize ▸ Nat.mul_le_mul_right _ hi
    rw [Nat.add_one_mul] at hle
    rw [List.length_take, List.length_drop, size_of_component? hts, ← hstride]
    omega
  refine ⟨⟨t, _, hlength⟩, ?_, rfl, fun k hk => ?_⟩
  · rw [element?, ht, Option.bind_some, if_pos hi, ofBytes?, dif_pos hlength]
  · have hpiece :
        (((v.data.drop (i * v.ty.stride)).take v.ty.stride).drop (k * s.size)).take s.size =
          (v.data.drop ((i * t.componentCount + k) * s.size)).take s.size := by
      rw [hstride, List.take_drop_piece hk]
    rw [get?, get?, hs, hts, Option.bind_some, Option.bind_some, hpiece]

theorem Canonical.element? (hv : v.Canonical) (h : v.element? i = some w) : w.Canonical := by
  obtain ⟨t, ht, h⟩ := Option.bind_eq_some_iff.mp h
  obtain ⟨s, hs, hts, hstride, hcount⟩ := Ty.stride_of_element? ht
  split at h
  · rename_i hi
    obtain ⟨cs, count, typed, hdata⟩ :=
      (Ty.canonical_iff (Ty.isStruct_of_isBasic (Ty.isBasic_of_component? hs))).mp hv
    have hsize : ∀ c ∈ cs, c.bytes.length = s.size := fun c hc => by
      rw [Scalar.length_bytes, Option.some.inj ((typed c hc).symm.trans hs)]
    have hle : (i + 1) * t.componentCount ≤ cs.length := by
      rw [count, hcount]
      exact Nat.mul_le_mul_right _ hi
    rw [Nat.add_one_mul] at hle
    rw [Canonical, ty_of_ofBytes? h, data_of_ofBytes? h, hdata,
      Ty.canonical_iff (Ty.isStruct_of_isBasic (Ty.isBasic_of_component? hts)), hstride,
      Nat.mul_comm s.size, ← Nat.mul_assoc, List.take_drop_flatMap_blocks hsize]
    refine ⟨_, ?_, fun c hc => ?_, rfl⟩
    · rw [List.length_take, List.length_drop]
      omega
    · rw [hts, ← hs, typed c (List.mem_of_mem_drop (List.mem_of_mem_take hc))]
  · simp at h

/-- Canonical values are the same when all of their components are. -/
theorem Canonical.ext (hv : v.Canonical) (hw : w.Canonical) (hty : v.ty = w.ty)
    (basic : v.ty.isBasic) (h : ∀ i < v.ty.componentCount, v.get? i = w.get? i) : v = w := by
  have hcomponents : v.components = w.components := by
    rw [components, components, ← hty]
    exact List.filterMap_congr fun i hi => h i (List.mem_range.mp hi)
  rw [← hv.ofComponents_components basic, ← hw.ofComponents_components (hty ▸ basic), hty,
    hcomponents]

end Value

namespace Folding

variable {s : ScalarType} {ty : Ty} {a b v w : Value} {rows inner inner' columns n : Nat}

theorem dot_congr {x x' y y' : Nat → Option Scalar} (hx : ∀ k < n, x k = x' k)
    (hy : ∀ k < n, y k = y' k) : dot s x y n = dot s x' y' n := by
  induction n with
  | zero => rfl
  | succ n ih =>
    have hinit := ih (fun k hk => hx k (Nat.lt_succ_of_lt hk))
      fun k hk => hy k (Nat.lt_succ_of_lt hk)
    rw [dot, dot, hinit, hx n (Nat.lt_succ_self n), hy n (Nat.lt_succ_self n)]

/-- A sum that is taken step by step. -/
theorem dot_of_foldlM {x y : Nat → Option Scalar} {step : Scalar → Nat → Except Unfolded Scalar}
    (hstep : ∀ k < n, ∀ sum next, step sum k = .ok next → ∃ a b term, x k = some a ∧ y k = some b ∧
      combine .mul (a.convert s) (b.convert s) = .ok term ∧ combine .add sum term = .ok next) :
    ∀ {z : Scalar}, (List.range n).foldlM step (.zero s) = .ok z → dot s x y n = some z := by
  induction n with
  | zero => exact fun h => congrArg some (Except.ok.inj h)
  | succ n ih =>
    intro z h
    rw [List.range_succ, List.foldlM_append] at h
    obtain ⟨sum, hsum, h⟩ := Except.bind_eq_ok.mp h
    have hinit := ih (fun k hk => hstep k (Nat.lt_succ_of_lt hk)) hsum
    obtain ⟨next, hnext, h⟩ := Except.bind_eq_ok.mp h
    obtain rfl := Except.ok.inj h
    obtain ⟨a, b, term, ha, hb, hterm, hnext⟩ := hstep n (Nat.lt_succ_self n) sum _ hnext
    rw [dot, hinit, ha, hb]
    simp only [Option.bind_eq_bind, Option.bind_some, Except.toOption_eq_some.mpr hterm]
    exact Except.toOption_eq_some.mpr hnext

/-- The components of an operand are converted. -/
theorem component_of_operand (h : operand s v = .ok w) (basic : v.ty.isBasic) {i : Nat}
    (hi : i < v.ty.componentCount) :
    ∃ x, v.get? i = some x ∧ component w i = .ok (x.convert s) := by
  obtain ⟨t, ht⟩ := Ty.component?_of_isBasic basic
  have hs := Ty.component?_withComponent basic s
  have hcount := Ty.componentCount_withComponent basic s
  rw [operand, Ty.isStruct_of_isBasic basic] at h
  cases hconvert : v.convert (v.ty.withComponent s) with
  | error => simp [hconvert] at h
  | ok w' =>
    rw [hconvert] at h
    obtain rfl : w' = w := Except.ok.inj h
    have hty := Value.ty_of_convert hconvert
    refine ⟨v.cell i, (Value.get?_eq_cell ht hi).1, ?_⟩
    rw [component, (Value.get?_eq_cell (hty ▸ hs) (hty ▸ hcount ▸ hi)).1,
      Value.cell_of_convert hconvert basic hs (hcount ▸ hi)]

theorem product?_eq_some (accepted : Operator.mul.resultType a.ty b.ty = .ok ty)
    (h : binary .mul ty a b = .ok v) : a.product? b = some v := by
  have hfold : (Expr.binary .mul ty (.constant a) (.constant b)).fold = .ok v := h
  rw [Value.product?, Except.toOption_eq_some.mpr accepted, Option.bind_some, Expr.constant?, hfold]
  rfl

/-- The sum that evaluation takes over a row and a column of its converted operands. Each index is
    inside of its factor, by `left` and `right`, so every term exists. -/
theorem dot_of_contraction {l r : Value} (ha : operand s a = .ok l) (hb : operand s b = .ok r)
    (basic : a.ty.isBasic) (basic' : b.ty.isBasic) (left : a.ty.componentCount = inner * rows)
    (right : b.ty.componentCount = columns * inner) {row column : Nat} (hrow : row < rows)
    (hcolumn : column < columns) {z : Scalar}
    (h : contraction s l r rows inner row column = .ok z) :
    dot s (fun k => a.get? (k * rows + row)) (fun k => b.get? (column * inner + k)) inner =
      some z := by
  refine dot_of_foldlM (fun k hk sum next hstep => ?_) h
  obtain ⟨x, hx, hstep⟩ := Except.bind_eq_ok.mp hstep
  obtain ⟨y, hy, hstep⟩ := Except.bind_eq_ok.mp hstep
  obtain ⟨term, hterm, hsum⟩ := Except.bind_eq_ok.mp hstep
  obtain ⟨x', hx', hconverted⟩ :=
    component_of_operand ha basic (left ▸ lt_count_of_position hk hrow)
  obtain ⟨y', hy', hconverted'⟩ :=
    component_of_operand hb basic' (right ▸ lt_count_of_position hcolumn hk)
  rw [Except.ok.inj (hx.symm.trans hconverted), Except.ok.inj (hy.symm.trans hconverted')] at hterm
  exact ⟨x', y', term, hx', hy', hterm, hsum⟩

/-- Each component of a product is a sum over a row of the one factor and a column of the other. The
    extents of the factors are told by their types, and accepted factors have the inner one in
    common. -/
theorem product?_total (accepted : Operator.mul.resultType a.ty b.ty = .ok ty)
    (hs : ty.component? = some s) (linear : isLinear a.ty b.ty)
    (left : extent true a.ty = some (rows, inner))
    (right : extent false b.ty = some (inner', columns)) :
    ∃ p, a.product? b = some p ∧ p.ty = ty ∧ p.Canonical ∧
      ∀ column < columns, ∀ row < rows, ∃ z, p.get? (column * rows + row) = some z ∧
        dot s (fun k => a.get? (k * rows + row)) (fun k => b.get? (column * inner + k)) inner =
          some z := by
  obtain ⟨p, hp, hty⟩ := binary_total isEvaluated_mul accepted
  refine ⟨p, product?_eq_some accepted hp, hty, canonical_binary hp,
    fun column hcolumn row hrow => ?_⟩
  have htyped : Operator.Typed .multiplication a.ty b.ty ty := Operator.resultType_typed accepted
  cases htyped with
  | integer integral => simp at integral
  | @multiplication _ _ _ s' number common shape =>
    obtain rfl : s' = s := Option.some.inj (shape.component.symm.trans hs)
    obtain ⟨rows', inner'', columns', hleft, hright, hl, hr, hcount⟩ :=
      extents_of_isLinear shape linear
    obtain ⟨rfl, rfl⟩ := Prod.mk.inj (Option.some.inj (hleft.symm.trans left))
    obtain ⟨rfl, rfl⟩ := Prod.mk.inj (Option.some.inj (hright.symm.trans right))
    obtain ⟨_, _, hacomponent, hbcomponent, -, -⟩ := commonComponent_eq_ok common
    obtain ⟨l, r, ha, hb, hlty, hrty⟩ := operands_total common
    have hproduct : product s' ty l r = .ok p := by
      rw [binary, hs] at hp
      simp only [ha, hb, bind, Except.bind, hlty, hrty, isLinear_withComponent, linear] at hp
      exact hp
    have hi : column * rows' + row < ty.componentCount :=
      hcount ▸ lt_count_of_position hcolumn hrow
    have hcell := cell_of_product hs (by rw [hlty, extent_withComponent, hleft])
      (by rw [hrty, extent_withComponent, hright]) hcount hproduct hi
    have hrow' : (column * rows' + row) % rows' = row := by
      rw [Nat.mul_add_mod', Nat.mod_eq_of_lt hrow]
    have hcolumn' : (column * rows' + row) / rows' = column := by
      rw [Nat.add_comm, Nat.add_mul_div_right _ _ (Nat.zero_lt_of_lt hrow), Nat.div_eq_of_lt hrow,
        Nat.zero_add]
    rw [hrow', hcolumn'] at hcell
    exact ⟨_, (Value.get?_eq_cell (hty ▸ hs) (hty ▸ hi)).1,
      dot_of_contraction ha hb (Ty.isBasic_of_component? hacomponent)
        (Ty.isBasic_of_component? hbcomponent) hl hr hrow hcolumn hcell⟩

/-- The common component type is a matter of component types. -/
theorem commonComponent_of_component? {l r r' : Ty} (h : r.component? = r'.component?)
    (hcommon : commonComponent l r = .ok s) : commonComponent l r' = .ok s := by
  unfold commonComponent at hcommon ⊢
  rw [← h]
  split at hcommon
  · split at hcommon
    · rwa [if_pos ‹_›]
    · rw [if_neg ‹_›]
      split at hcommon
      · rwa [if_pos ‹_›]
      · simp at hcommon
  · simp at hcommon

/-- A matrix that is multiplied with another can be multiplied with the columns of the other. -/
theorem accepts_column {l r : ScalarType} {inner columns rows : Dim}
    (accepted : Operator.mul.resultType (.matrix l inner rows) (.matrix r columns inner) = .ok ty)
    (hs : ty.component? = some s) :
    Operator.mul.resultType (.matrix l inner rows) (.vector r inner) = .ok (.vector s rows) := by
  simp only [Operator.resultType, Operator.family, Operator.productType, Ty.isBasic, Bool.and_self,
    Bool.not_true, Bool.false_eq_true, if_false, Ty.component?] at accepted ⊢
  split at accepted
  · simp at accepted
  · rename_i hnumbers
    obtain ⟨t, hcommon, hty⟩ := Except.bind_eq_ok.mp accepted
    obtain rfl := Except.ok.inj hty
    obtain rfl : t = s := Option.some.inj hs
    have hcolumn : (Ty.matrix r columns inner).component? = (Ty.vector r inner).component? := rfl
    rw [if_neg hnumbers, commonComponent_of_component? hcolumn hcommon]
    rfl

variable {l r : ScalarType} {m n k : Dim}

/-- A matrix is applied to each column of another matrix. -/
theorem product?_matrices (accepted : Operator.mul.resultType a.ty b.ty = .ok ty)
    (ha : a.ty = .matrix l k m) (hb : b.ty = .matrix r n k) (hty : ty = .matrix s n m) :
    ∃ p, a.product? b = some p ∧ p.ty = ty ∧ ∀ j < n.toNat, ∃ column q,
      b.element? j = some column ∧ a.product? column = some q ∧ p.element? j = some q := by
  have hs : ty.component? = some s := by rw [hty]; rfl
  obtain ⟨p, hp, hpty, hcanonical, hcells⟩ := product?_total accepted hs (by rw [ha, hb]; rfl)
    (by rw [ha]; rfl) (by rw [hb]; rfl)
  refine ⟨p, hp, hpty, fun j hj => ?_⟩
  obtain ⟨column, hcolumn, hcty, hget⟩ := Value.element?_total hb rfl hj
  obtain ⟨e, he, hety, heget⟩ := Value.element?_total (hpty.trans hty) rfl hj
  have haccepted : Operator.mul.resultType a.ty column.ty = .ok (.vector s m) := by
    rw [ha, hb] at accepted
    rw [ha, hcty]
    exact accepts_column accepted hs
  obtain ⟨q, hq, hqty, hqcanonical, hqcells⟩ := product?_total (s := s) haccepted rfl
    (by rw [ha, hcty]; rfl) (by rw [ha]; rfl) (by rw [hcty]; rfl)
  have hsame : e = q := by
    refine (hcanonical.element? he).ext hqcanonical (hety.trans hqty.symm) (by rw [hety]; rfl)
      fun i hi => ?_
    rw [hety] at hi
    obtain ⟨z, hz, hdot⟩ := hcells j hj i hi
    obtain ⟨z', hz', hdot'⟩ := hqcells 0 Nat.zero_lt_one i hi
    have hdots : z = z' := by
      refine Option.some.inj (hdot.symm.trans (Eq.trans ?_ hdot'))
      refine dot_congr (fun _ _ => rfl) fun c hc => ?_
      rw [Nat.zero_mul, Nat.zero_add]
      exact (hget c hc).symm
    rw [Nat.zero_mul, Nat.zero_add, ← hdots] at hz'
    rw [hz', heget i hi]
    exact hz
  exact ⟨column, q, hcolumn, hq, hsame ▸ he⟩

/-- A matrix that is multiplied with a vector. -/
theorem product?_matrixVector (accepted : Operator.mul.resultType a.ty b.ty = .ok ty)
    (ha : a.ty = .matrix l k m) (hb : b.ty = .vector r k) (hty : ty = .vector s m) :
    ∃ p, a.product? b = some p ∧ p.ty = ty ∧ ∀ i < m.toNat, ∃ z, p.get? i = some z ∧
      dot s (fun c => (a.element? c).bind (·.get? i)) b.get? k.toNat = some z := by
  have hs : ty.component? = some s := by rw [hty]; rfl
  obtain ⟨p, hp, hpty, -, hcells⟩ := product?_total accepted hs (by rw [ha, hb]; rfl)
    (by rw [ha]; rfl) (by rw [hb]; rfl)
  refine ⟨p, hp, hpty, fun i hi => ?_⟩
  obtain ⟨z, hz, hdot⟩ := hcells 0 Nat.zero_lt_one i hi
  rw [Nat.zero_mul, Nat.zero_add] at hz
  refine ⟨z, hz, Eq.trans (dot_congr (fun c hc => ?_) fun c _ => ?_) hdot⟩
  · obtain ⟨column, hcolumn, -, hget⟩ := Value.element?_total ha rfl hc
    rw [hcolumn, Option.bind_some]
    exact hget i hi
  · rw [Nat.zero_mul, Nat.zero_add]

/-- A vector that is multiplied with a matrix. -/
theorem product?_vectorMatrix (accepted : Operator.mul.resultType a.ty b.ty = .ok ty)
    (ha : a.ty = .vector l k) (hb : b.ty = .matrix r n k) (hty : ty = .vector s n) :
    ∃ p, a.product? b = some p ∧ p.ty = ty ∧ ∀ j < n.toNat, ∃ z, p.get? j = some z ∧
      dot s a.get? (fun c => (b.element? j).bind (·.get? c)) k.toNat = some z := by
  have hs : ty.component? = some s := by rw [hty]; rfl
  obtain ⟨p, hp, hpty, -, hcells⟩ := product?_total accepted hs (by rw [ha, hb]; rfl)
    (by rw [ha]; rfl) (by rw [hb]; rfl)
  refine ⟨p, hp, hpty, fun j hj => ?_⟩
  obtain ⟨z, hz, hdot⟩ := hcells j hj 0 Nat.zero_lt_one
  rw [Nat.mul_one, Nat.add_zero] at hz
  obtain ⟨column, hcolumn, -, hget⟩ := Value.element?_total hb rfl hj
  refine ⟨z, hz, Eq.trans (dot_congr (fun c _ => ?_) fun c hc => ?_) hdot⟩
  · rw [Nat.mul_one, Nat.add_zero]
  · rw [hcolumn, Option.bind_some]
    exact hget c hc

end Folding

/-- Two constants that the check lets multiply have a product, of the type that the check gives. Its
    column `j` is the product of the left matrix and column `j` of the right one. Component `i` of a
    matrix times a vector is the sum over `k` of component `i` of column `k` times component `k`.
    Component `j` of a vector times a matrix is that of component `k` times component `k` of column
    `j`. Both sums start from zero and go by `k`, in the component type of the result: rounding
    makes the order matter. -/
theorem Value.product?_linear {a b : Value} {ty : Ty}
    (accepted : Operator.mul.resultType a.ty b.ty = .ok ty) :
    ∃ s p, ty.component? = some s ∧ a.product? b = some p ∧ p.ty = ty ∧
      (a.ty.isMatrix → b.ty.isMatrix → ty.length = b.ty.length ∧ ∀ j < b.ty.length, ∃ column q,
        b.element? j = some column ∧ a.product? column = some q ∧ p.element? j = some q) ∧
      (a.ty.isMatrix → b.ty.isVector → a.ty.length = b.ty.length ∧ ∀ i < ty.length, ∃ z,
        p.get? i = some z ∧
          Folding.dot s (fun k => (a.element? k).bind (·.get? i)) b.get? b.ty.length = some z) ∧
      (a.ty.isVector → b.ty.isMatrix → ty.length = b.ty.length ∧ ∀ j < ty.length, ∃ z,
        p.get? j = some z ∧
          Folding.dot s a.get? (fun k => (b.element? j).bind (·.get? k)) a.ty.length = some z) := by
  have htyped : Operator.Typed .multiplication a.ty b.ty ty := Operator.resultType_typed accepted
  cases htyped with
  | integer integral => simp at integral
  | multiplication number common shape =>
    have hs := shape.component
    generalize ha : a.ty = left at shape
    generalize hb : b.ty = right at shape
    cases shape with
    | matrices =>
      obtain ⟨p, hp, hpty, hcolumns⟩ := Folding.product?_matrices accepted ha hb rfl
      exact ⟨_, p, hs, hp, hpty, fun _ _ => ⟨rfl, hcolumns⟩, nofun, nofun⟩
    | matrixVector =>
      obtain ⟨p, hp, hpty, hsums⟩ := Folding.product?_matrixVector accepted ha hb rfl
      exact ⟨_, p, hs, hp, hpty, nofun, fun _ _ => ⟨rfl, hsums⟩, nofun⟩
    | vectorMatrix =>
      obtain ⟨p, hp, hpty, hsums⟩ := Folding.product?_vectorMatrix accepted ha hb rfl
      exact ⟨_, p, hs, hp, hpty, nofun, nofun, fun _ _ => ⟨rfl, hsums⟩⟩
    | terms terms plain =>
      obtain ⟨p, hp, hpty⟩ := Folding.binary_total Folding.isEvaluated_mul accepted
      have hplain := Folding.isLinear_of_termShape terms plain
      refine ⟨_, p, hs, Folding.product?_eq_some accepted hp, hpty, ?_, ?_, ?_⟩
      all_goals
        intro hl hr
        simp [Folding.isLinear, hl, hr] at hplain

/-- Factors that are not square, with components of two types. -/
theorem Value.product?_linear_rectangular :
    let a := ofComponents (.matrix .float .two .three)
      [.int 1, .int 2, .int 3, .int 4, .int 5, .int 6]
    let b := ofComponents (.matrix .double .four .two)
      [.int 1, .int 0, .int 0, .int 1, .int 2, .int 0, .int 0, .int 2]
    Operator.mul.resultType a.ty b.ty = .ok (.matrix .double .four .three) ∧
      ∃ p, a.product? b = some p ∧ ∀ j < 4, ∃ column q, b.element? j = some column ∧
        a.product? column = some q ∧ p.element? j = some q := by
  intro a b
  have accepted : Operator.mul.resultType a.ty b.ty = .ok (.matrix .double .four .three) := by
    decide
  obtain ⟨s, p, -, hp, -, hcolumns, -, -⟩ := product?_linear accepted
  exact ⟨accepted, p, hp, (hcolumns rfl rfl).2⟩

end ShaderExpr
