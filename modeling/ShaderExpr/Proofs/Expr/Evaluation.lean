import Mathlib.Data.List.Forall2
import ShaderExpr.Proofs.Collections
import ShaderExpr.Proofs.Expr.WellTyped
import ShaderExpr.Proofs.Value.Bytes

namespace ShaderExpr

theorem Scalar.ofBytes?_total {s : ScalarType} {bytes : List UInt8} (h : bytes.length = s.size) :
    ∃ x, ofBytes? s bytes = some x ∧ x.type = s := by
  have hwords := length_wordsOfBytes h
  rw [ofBytes?, if_pos h]
  cases s with
  | float | int | uint | bool =>
    obtain ⟨w, hw⟩ := List.length_eq_one_iff.mp hwords
    rw [hw]
    exact ⟨_, rfl, rfl⟩
  | double =>
    obtain ⟨low, high, hw⟩ := List.length_eq_two.mp hwords
    rw [hw]
    exact ⟨_, rfl, rfl⟩

namespace Value

theorem get?_total {v : Value} {s : ScalarType} (hs : v.ty.component? = some s) {i : Nat}
    (hi : i < v.ty.componentCount) : ∃ x, v.get? i = some x ∧ x.type = s := by
  have hsize : v.data.length = s.size * v.ty.componentCount := by
    rw [v.size_eq, size_of_component? hs]
  have hlength : ((v.data.drop (i * s.size)).take s.size).length = s.size := by
    have hle : (i + 1) * s.size ≤ v.data.length := by
      rw [hsize, Nat.mul_comm s.size]
      exact Nat.mul_le_mul_right _ hi
    rw [Nat.add_mul, Nat.one_mul] at hle
    rw [List.length_take, List.length_drop]
    omega
  obtain ⟨x, hx, hxs⟩ := Scalar.ofBytes?_total hlength
  refine ⟨x, ?_, hxs⟩
  rw [get?, hs]
  exact hx

theorem convert_total {v : Value} {ty : Ty} (basic : v.ty.isBasic) (basic' : ty.isBasic)
    (count : v.ty.componentCount = ty.componentCount) : ∃ w, v.convert ty = .ok w ∧ w.ty = ty := by
  unfold convert
  split
  · rename_i hty
    exact ⟨v, rfl, hty⟩
  · rw [if_pos (by simp [basic, basic', count])]
    exact ⟨_, rfl, ofComponents_ty ty _⟩

theorem components_type {v : Value} {s : ScalarType} (hs : v.ty.component? = some s) :
    ∀ x ∈ v.components, x.type = s := by
  intro x hx
  obtain ⟨i, hi, hget⟩ := List.mem_filterMap.mp hx
  obtain ⟨y, hy, hys⟩ := v.get?_total hs (List.mem_range.mp hi)
  rw [hget, Option.some.injEq] at hy
  rw [hy, hys]

theorem length_components {v : Value} (basic : v.ty.isBasic) :
    v.components.length = v.ty.componentCount := by
  obtain ⟨s, hs⟩ := Ty.component?_of_isBasic basic
  have hall : ∀ i ∈ List.range v.ty.componentCount, (v.get? i).isSome := by
    intro i hi
    obtain ⟨x, hx, -⟩ := v.get?_total hs (List.mem_range.mp hi)
    rw [hx]
    rfl
  rw [components, List.filterMap_length_eq_length.mpr hall, List.length_range]

end Value

namespace Folding

theorem component_total {v : Value} {s : ScalarType} (hs : v.ty.component? = some s) {i : Nat}
    (hi : i < v.ty.componentCount) : ∃ x, component v i = .ok x ∧ x.type = s := by
  obtain ⟨x, hx, hxs⟩ := v.get?_total hs hi
  refine ⟨x, ?_, hxs⟩
  rw [component, hx]

/-- The operators that are evaluated. -/
def IsEvaluated (op : Operator) : Prop := op.family = .multiplication ∨ op.family = .arithmetic

theorem isEvaluated_mul : IsEvaluated .mul := .inl rfl
theorem isEvaluated_add : IsEvaluated .add := .inr rfl
theorem isEvaluated_div : IsEvaluated .div := .inr rfl

theorem combine_total {op : Operator} (hop : IsEvaluated op) {s : ScalarType} (number : s ≠ .bool)
    {x y : Scalar} (hx : x.type = s) (hy : y.type = s) :
    ∃ z, combine op x y = .ok z ∧ z.type = s := by
  subst hx
  have hop : op = .mul ∨ op = .div ∨ op = .add ∨ op = .sub := by
    revert hop
    cases op <;> simp [IsEvaluated, Operator.family]
  cases x with
  | bool => exact absurd rfl number
  | float | double | int | uint =>
    cases y <;> simp only [Scalar.type, reduceCtorEq] at hy
    obtain rfl | rfl | rfl | rfl := hop <;> exact ⟨_, rfl, rfl⟩

theorem opposite_total {x : Scalar} (number : x.type ≠ .bool) : ∃ y, opposite x = .ok y := by
  cases x with
  | bool => exact absurd rfl number
  | float | double | int | uint => exact ⟨_, rfl⟩

theorem operand_total (s : ScalarType) {v : Value} (basic : v.ty.isBasic) :
    ∃ w, operand s v = .ok w ∧ w.ty = v.ty.withComponent s := by
  obtain ⟨w, hw, hty⟩ := v.convert_total basic (Ty.isBasic_withComponent basic s)
    (Ty.componentCount_withComponent basic s).symm
  refine ⟨w, ?_, hty⟩
  rw [operand, Ty.isStruct_of_isBasic basic, hw]
  rfl

/-- A term gives a component for each one of the result. -/
theorem pick_total {v : Value} {s : ScalarType} {ty : Ty} (component : ty.component? = some s)
    (term : Ty.IsTerm s ty v.ty) {i : Nat} (hi : i < ty.componentCount) :
    ∃ x, Folding.component v (if v.ty.componentCount = 1 then 0 else i) = .ok x ∧ x.type = s := by
  rcases term with hv | hv
  · refine component_total (hv ▸ component) ?_
    rw [hv]
    split <;> omega
  · refine component_total (by rw [hv]; rfl) ?_
    rw [hv]
    exact Nat.one_pos

theorem componentwise_total {op : Operator} (hop : IsEvaluated op) {s : ScalarType} {ty : Ty}
    (number : s ≠ .bool) (component : ty.component? = some s) {l r : Value}
    (left : Ty.IsTerm s ty l.ty) (right : Ty.IsTerm s ty r.ty) :
    ∃ v, componentwise op ty l r = .ok v ∧ v.ty = ty := by
  have hresults := Except.mapM_total (P := fun x => x.type = s) (l := List.range ty.componentCount)
    (f := fun i => do
      combine op (← Folding.component l (if l.ty.componentCount = 1 then 0 else i))
        (← Folding.component r (if r.ty.componentCount = 1 then 0 else i))) fun i hi => by
    have hi := List.mem_range.mp hi
    obtain ⟨x, hx, hxs⟩ := pick_total component left hi
    obtain ⟨y, hy, hys⟩ := pick_total component right hi
    obtain ⟨z, hz, hzs⟩ := combine_total hop number hxs hys
    exact ⟨z, by rw [hx, hy]; exact hz, hzs⟩
  obtain ⟨results, hresults, -, -⟩ := hresults
  refine ⟨.ofComponents ty results, ?_, Value.ofComponents_ty ty results⟩
  rw [componentwise, hresults]
  rfl

theorem foldlM_total {α : Type} {f : Scalar → α → Except Unfolded Scalar} {s : ScalarType} :
    ∀ {l : List α} {x : Scalar}, x.type = s →
      (∀ a ∈ l, ∀ x, x.type = s → ∃ y, f x a = .ok y ∧ y.type = s) →
      ∃ y, l.foldlM f x = .ok y ∧ y.type = s
  | [], x, hx, _ => ⟨x, rfl, hx⟩
  | a :: l, x, hx, h => by
    obtain ⟨y, hy, hys⟩ := h a List.mem_cons_self x hx
    obtain ⟨z, hz, hzs⟩ := foldlM_total hys fun b hb => h b (List.mem_cons_of_mem a hb)
    refine ⟨z, ?_, hzs⟩
    rw [List.foldlM_cons, hy]
    exact hz

theorem lt_count_of_position {columns rows column row : Nat} (hcolumn : column < columns)
    (hrow : row < rows) : column * rows + row < columns * rows := by
  have hle : (column + 1) * rows ≤ columns * rows := Nat.mul_le_mul_right rows hcolumn
  rw [Nat.add_mul, Nat.one_mul] at hle
  omega

theorem contraction_total {s : ScalarType} (number : s ≠ .bool) {l r : Value}
    (left : l.ty.component? = some s) (right : r.ty.component? = some s)
    {rows inner columns row column : Nat} (hrow : row < rows) (hcolumn : column < columns)
    (hl : l.ty.componentCount = inner * rows) (hr : r.ty.componentCount = columns * inner) :
    ∃ x, contraction s l r rows inner row column = .ok x ∧ x.type = s := by
  unfold contraction
  refine foldlM_total (Scalar.type_convert _ s) fun k hk sum hsum => ?_
  have hk := List.mem_range.mp hk
  obtain ⟨x, hx, hxs⟩ := component_total left (hl ▸ lt_count_of_position hk hrow)
  obtain ⟨y, hy, hys⟩ := component_total right (hr ▸ lt_count_of_position hcolumn hk)
  obtain ⟨z, hz, hzs⟩ := combine_total isEvaluated_mul number hxs hys
  obtain ⟨w, hw, hws⟩ := combine_total isEvaluated_add number hsum hzs
  exact ⟨w, by rw [hx, hy]; simp only [bind, Except.bind]; rw [hz]; exact hw, hws⟩

/-- Factors of linear algebra give as many components as their product has. `hl` and `hr` say that
    every index that the sums use is inside of a factor. -/
theorem product_total {s : ScalarType} (number : s ≠ .bool) {ty : Ty} {l r : Value}
    (left : l.ty.component? = some s) (right : r.ty.component? = some s)
    {rows inner columns : Nat} (hleft : extent true l.ty = some (rows, inner))
    (hright : extent false r.ty = some (inner, columns))
    (hl : l.ty.componentCount = inner * rows) (hr : r.ty.componentCount = columns * inner)
    (hty : ty.componentCount = columns * rows) :
    ∃ v, product s ty l r = .ok v ∧ v.ty = ty := by
  have hcolumn (column : Nat) (hcolumn : column ∈ List.range columns) :
      ∃ xs, (List.range rows).mapM (fun row => contraction s l r rows inner row column) = .ok xs ∧
        xs.length = rows := by
    obtain ⟨xs, hxs, hlength, -⟩ := Except.mapM_total (P := fun _ => True)
      (f := fun row => contraction s l r rows inner row column) (l := List.range rows)
      fun row hrow => by
        obtain ⟨x, hx, -⟩ := contraction_total number left right (List.mem_range.mp hrow)
          (List.mem_range.mp hcolumn) hl hr
        exact ⟨x, hx, trivial⟩
    exact ⟨xs, hxs, by simpa using hlength⟩
  obtain ⟨results, hresults, hlength, hparts⟩ := Except.mapM_total hcolumn
  have hflatten : results.flatten.length = columns * rows := by
    rw [List.length_flatten, List.map_congr_left hparts, List.map_const', List.sum_replicate_nat,
      hlength, List.length_range]
  unfold product
  rw [hleft, hright]
  dsimp only
  rw [hresults]
  have hfits : results.flatten.length ≤ ty.componentCount := by omega
  refine ⟨.ofComponents ty results.flatten, ?_, Value.ofComponents_ty ty _⟩
  simp only [bind, Except.bind, Value.ofComponents?, if_pos hfits]
  rfl

theorem reciprocal_total {s : ScalarType} (number : s ≠ .bool) {v : Value}
    (component : v.ty.component? = some s) : ∃ w, reciprocal s v = .ok w ∧ w.ty = v.ty := by
  obtain ⟨results, hresults, -, -⟩ := Except.mapM_total (P := fun _ => True)
    (f := fun x => combine .div (.one s) x) (l := v.components) fun x hx => by
      obtain ⟨z, hz, -⟩ := combine_total isEvaluated_div number
        (Scalar.type_convert (.int 1) s) (Value.components_type component x hx)
      exact ⟨z, hz, trivial⟩
  refine ⟨.ofComponents v.ty results, ?_, Value.ofComponents_ty _ _⟩
  rw [reciprocal, hresults]
  rfl

theorem extent_withComponent (onLeft : Bool) (ty : Ty) (s : ScalarType) :
    extent onLeft (ty.withComponent s) = extent onLeft ty := by
  cases ty <;> rfl

theorem isBasic_of_extent {onLeft : Bool} {ty : Ty} {e : Nat × Nat}
    (h : extent onLeft ty = some e) : ty.isBasic := by
  cases ty with
  | void | scalar | struct => simp [extent] at h
  | vector | matrix => rfl

theorem isLinear_withComponent (left right : Ty) (s t : ScalarType) :
    isLinear (left.withComponent s) (right.withComponent t) = isLinear left right := by
  cases left <;> cases right <;> rfl

/-- Terms are no factors of linear algebra. -/
theorem isLinear_of_termShape {s : ScalarType} {left right ty : Ty}
    (shape : Operator.TermShape s left right ty) (plain : ¬(left.isMatrix ∧ right.isMatrix)) :
    isLinear left right = false := by
  cases shape with
  | same basic shapes =>
    cases left <;> cases right <;>
      simp_all [isLinear, Ty.withComponent, Ty.isMatrix, Ty.isVector]
  | scalarLeft => simp [isLinear, Ty.isMatrix, Ty.isVector]
  | scalarRight => simp [isLinear, Ty.isMatrix, Ty.isVector]

/-- Factors of linear algebra have the extents of their product. -/
theorem extents_of_isLinear {s : ScalarType} {left right ty : Ty}
    (shape : Operator.ProductShape s left right ty) (linear : isLinear left right) :
    ∃ rows inner columns, extent true left = some (rows, inner) ∧
      extent false right = some (inner, columns) ∧ left.componentCount = inner * rows ∧
      right.componentCount = columns * inner ∧ ty.componentCount = columns * rows := by
  cases shape with
  | matrices => exact ⟨_, _, _, rfl, rfl, rfl, rfl, rfl⟩
  | matrixVector => exact ⟨_, _, _, rfl, rfl, rfl, (Nat.one_mul _).symm, (Nat.one_mul _).symm⟩
  | vectorMatrix => exact ⟨_, _, _, rfl, rfl, (Nat.mul_one _).symm, rfl, (Nat.mul_one _).symm⟩
  | terms terms plain => simp [isLinear_of_termShape terms plain] at linear

/-- Products of linear algebra of operands whose types the check let pass. They are taken of numbers
    only, which have a product and a sum of any two. -/
theorem linear_total {s : ScalarType} (number : s ≠ .bool) {left right ty : Ty} {l r : Value}
    (shape : Operator.ProductShape s left right ty) (linear : isLinear l.ty r.ty)
    (hl : l.ty = left.withComponent s) (hr : r.ty = right.withComponent s) :
    ∃ v, product s ty l r = .ok v ∧ v.ty = ty := by
  rw [hl, hr, isLinear_withComponent] at linear
  obtain ⟨rows, inner, columns, hleft, hright, hlcount, hrcount, hcount⟩ :=
    extents_of_isLinear shape linear
  have hleftBasic := isBasic_of_extent hleft
  have hrightBasic := isBasic_of_extent hright
  rw [← extent_withComponent true left s, ← hl] at hleft
  rw [← extent_withComponent false right s, ← hr] at hright
  refine product_total number ?_ ?_ hleft hright ?_ ?_ hcount
  · rw [hl, Ty.component?_withComponent hleftBasic]
  · rw [hr, Ty.component?_withComponent hrightBasic]
  · rw [hl, Ty.componentCount_withComponent hleftBasic, hlcount]
  · rw [hr, Ty.componentCount_withComponent hrightBasic, hrcount]

theorem isLinear_of_productShape {s : ScalarType} {left right ty : Ty}
    (shape : Operator.ProductShape s left right ty) :
    isLinear (left.withComponent s) (right.withComponent s) ∨ Operator.TermShape s left right ty := by
  cases shape with
  | matrices | matrixVector | vectorMatrix => exact .inl rfl
  | terms shape => exact .inr shape

/-- Operands in the component type of the result, which all operators are evaluated in. -/
theorem operands_total {l r : Value} {s : ScalarType}
    (common : commonComponent l.ty r.ty = .ok s) : ∃ l' r', operand s l = .ok l' ∧
      operand s r = .ok r' ∧ l'.ty = l.ty.withComponent s ∧ r'.ty = r.ty.withComponent s := by
  obtain ⟨a, b, ha, hb, -, -⟩ := commonComponent_eq_ok common
  obtain ⟨l', hl, hlty⟩ := operand_total s (Ty.isBasic_of_component? ha)
  obtain ⟨r', hr, hrty⟩ := operand_total s (Ty.isBasic_of_component? hb)
  exact ⟨l', r', hl, hr, hlty, hrty⟩

theorem multiplication_total {op : Operator} (hop : op = .mul) {ty : Ty} {l r : Value}
    {s : ScalarType} (number : s ≠ .bool) (common : commonComponent l.ty r.ty = .ok s)
    (shape : Operator.ProductShape s l.ty r.ty ty) : ∃ v, binary op ty l r = .ok v ∧ v.ty = ty := by
  subst hop
  obtain ⟨l', r', hl, hr, hlty, hrty⟩ := operands_total common
  unfold binary
  rw [shape.component]
  simp only [hl, hr, bind, Except.bind, reduceCtorEq, false_and, if_false, true_and]
  by_cases hlinear : isLinear l'.ty r'.ty = true
  · rw [if_pos hlinear]
    exact linear_total number shape hlinear hlty hrty
  · rw [if_neg hlinear]
    rcases isLinear_of_productShape shape with h | h
    · rw [hlty, hrty] at hlinear
      exact absurd h hlinear
    · exact componentwise_total isEvaluated_mul number h.component (hlty ▸ h.terms.1)
        (hrty ▸ h.terms.2)

theorem arithmetic_total {op : Operator} (hop : op.family = .arithmetic) {ty : Ty} {l r : Value}
    {s : ScalarType} (number : s ≠ .bool) (common : commonComponent l.ty r.ty = .ok s)
    (shape : Operator.TermShape s l.ty r.ty ty) : ∃ v, binary op ty l r = .ok v ∧ v.ty = ty := by
  obtain ⟨l', r', hl, hr, hlty, hrty⟩ := operands_total common
  have hleft : Ty.IsTerm s ty l'.ty := hlty ▸ shape.terms.1
  have hright : Ty.IsTerm s ty r'.ty := hrty ▸ shape.terms.2
  have hmul : op ≠ .mul := by
    rintro rfl
    simp [Operator.family] at hop
  unfold binary
  rw [shape.component]
  simp only [hl, hr, bind, Except.bind, hmul, false_and, if_false]
  split
  · have hcomponent : r'.ty.component? = some s := by
      rcases hright with h | h
      · rw [h, shape.component]
      · rw [h]
        rfl
    obtain ⟨inverse, hinverse, hty⟩ := reciprocal_total number hcomponent
    rw [hinverse]
    exact componentwise_total isEvaluated_mul number shape.component hleft (hty ▸ hright)
  · exact componentwise_total (.inr hop) number shape.component hleft hright

theorem binary_total {op : Operator} (hop : IsEvaluated op) {ty : Ty} {l r : Value}
    (typed : op.resultType l.ty r.ty = .ok ty) : ∃ v, binary op ty l r = .ok v ∧ v.ty = ty := by
  have htyped := Operator.resultType_typed typed
  rcases hop with hfamily | hfamily
  · have hop : op = .mul := by
      revert hfamily
      cases op <;> simp [Operator.family]
    rw [hfamily] at htyped
    cases htyped with
    | multiplication number common shape => exact multiplication_total hop number common shape
    | integer integral => simp at integral
  · rw [hfamily] at htyped
    cases htyped with
    | arithmetic number common shape => exact arithmetic_total hfamily number common shape
    | integer integral => simp at integral

theorem negation_total {v : Value} (basic : v.ty.isBasic) (number : v.ty.component? ≠ some .bool) :
    ∃ w, negation v = .ok w ∧ w.ty = v.ty := by
  obtain ⟨s, hs⟩ := Ty.component?_of_isBasic basic
  obtain ⟨results, hresults, -, -⟩ := Except.mapM_total (P := fun _ => True) (f := opposite)
    (l := v.components) fun x hx => by
      obtain ⟨y, hy⟩ := opposite_total (x := x) fun h =>
        number (by rw [hs, ← Value.components_type hs x hx, h])
      exact ⟨y, hy, trivial⟩
  refine ⟨.ofComponents v.ty results, ?_, Value.ofComponents_ty _ _⟩
  rw [negation, if_pos basic, hresults]
  rfl

theorem construct_total {ty : Ty} {arguments : List Value}
    (basic : ∀ v ∈ arguments, v.ty.isBasic) : ∃ v, construct ty arguments = .ok v ∧ v.ty = ty := by
  unfold construct
  split
  · rename_i v
    obtain ⟨s, hs⟩ := Ty.component?_of_isBasic (basic v List.mem_cons_self)
    have hbasic := basic v List.mem_cons_self
    split
    · rename_i hscalar
      have hcount : 0 < v.ty.componentCount := by
        cases hv : v.ty with
        | scalar => exact Nat.one_pos
        | void => simp [hv, Ty.isBasic] at hbasic
        | vector | matrix | struct => simp [hv, Ty.isScalar] at hscalar
      obtain ⟨x, hx, -⟩ := component_total hs hcount
      rw [hx]
      exact ⟨_, rfl, Value.ofComponents_ty _ _⟩
    · split
      · rename_i s' columns rows t columns' rows' hv
        refine Except.mapM_bind_total (fun position _ => ?_) fun results =>
          ⟨_, rfl, Value.ofComponents_ty _ _⟩
        obtain ⟨column, row⟩ := position
        dsimp only
        split
        · rename_i hinside
          have hlt : column * rows'.toNat + row < v.ty.componentCount := by
            rw [hv]
            exact lt_count_of_position hinside.1 hinside.2
          obtain ⟨x, hx, -⟩ := component_total hs hlt
          exact ⟨x, hx⟩
        · exact ⟨_, rfl⟩
      · exact ⟨_, rfl, Value.ofComponents_ty _ _⟩
  · exact ⟨_, rfl, Value.ofComponents_ty _ _⟩

theorem select_total {ty : Ty} {indexes : List Nat} {v : Value}
    (shape : (∃ s, v.ty = .scalar s) ∨ ∃ s n, v.ty = .vector s n)
    (inside : ∀ i ∈ indexes, i < max v.ty.length 1) :
    ∃ w, select ty indexes v = .ok w ∧ w.ty = ty := by
  obtain ⟨results, hresults, -, -⟩ := Except.mapM_total (P := fun _ => True)
    (f := fun i => component v (if v.ty.isScalar then 0 else i)) (l := indexes) fun i hi => by
      have hin := inside i hi
      rcases shape with ⟨s, hv⟩ | ⟨s, n, hv⟩
      · obtain ⟨x, hx, -⟩ := component_total (v := v) (i := 0) (by rw [hv]; rfl)
          (by rw [hv]; exact Nat.one_pos)
        exact ⟨x, by rw [hv]; exact hx, trivial⟩
      · rw [hv] at hin
        have hin : i < n.toNat := by cases n <;> simpa [Ty.length, Dim.toNat] using hin
        obtain ⟨x, hx, -⟩ := component_total (v := v) (i := i) (by rw [hv]; rfl)
          (by rw [hv]; exact hin)
        exact ⟨x, by rw [hv]; exact hx, trivial⟩
  refine ⟨.ofComponents ty results, ?_, Value.ofComponents_ty _ _⟩
  rw [select, hresults]
  rfl

end Folding

namespace Ty

theorem membersSize_take_add {ms : List (String × Ty)} {i : Nat} (hi : i < ms.length) :
    membersSize (ms.take i) + ms[i].2.size ≤ membersSize ms := by
  induction ms generalizing i with
  | nil => simp at hi
  | cons m ms ih =>
    cases i with
    | zero => simp [membersSize]
    | succ i =>
      have h := ih (i := i) (by simpa using hi)
      simp only [List.take_succ_cons, membersSize, List.getElem_cons_succ]
      omega

theorem size_eq_membersSize {ty : Ty} (h : ty.isStruct) : ty.size = membersSize ty.members := by
  cases ty with
  | struct => rfl
  | void | scalar | vector | matrix => simp [isStruct] at h

end Ty

namespace Value

theorem ofBytes?_total {t : Ty} {d : List UInt8} (h : d.length = t.size) :
    ∃ v, ofBytes? t d = some v ∧ v.ty = t ∧ v.data = d := by
  rw [ofBytes?, dif_pos h]
  exact ⟨_, rfl, rfl, rfl⟩

theorem ofData_total {ty : Ty} (struct : ty.isStruct) {data : List UInt8}
    (h : data.length = ty.size) : ∃ v, ofData ty data = .ok v ∧ v.ty = ty ∧ v.data = data := by
  have hvoid : ty.isVoid = false := by
    cases ty with
    | struct => rfl
    | void | scalar | vector | matrix => simp [Ty.isStruct] at struct
  obtain ⟨v, hv, hty⟩ := ofBytes?_total h
  refine ⟨v, ?_, hty⟩
  rw [ofData, if_neg (by simp [hvoid]), hv]

theorem member?_total {v : Value} {i : Nat} (hi : i < v.ty.members.length) :
    ∃ w, v.member? i = some w ∧ w.ty = v.ty.memberType i := by
  have hstruct : v.ty.isStruct := by
    cases hv : v.ty with
    | struct => rfl
    | void | scalar | vector | matrix => simp [hv, Ty.members] at hi
  have hle := Ty.membersSize_take_add hi
  rw [← Ty.size_eq_membersSize hstruct, ← v.size_eq] at hle
  obtain ⟨w, hw, hty, -⟩ := ofBytes?_total (t := v.ty.members[i].2)
    (d := (v.data.drop (v.ty.memberOffset i)).take v.ty.members[i].2.size) (by
      rw [List.length_take, List.length_drop, Ty.memberOffset]
      omega)
  refine ⟨w, ?_, ?_⟩
  · rw [member?, List.getElem?_eq_getElem hi]
    exact hw
  · rw [hty, Ty.memberType, List.getElem?_eq_getElem hi]
    rfl

/-- Values of the types of members fill these. -/
theorem length_flatMap_data {values : List Value} {members : List (String × Ty)}
    (typed : List.Forall₂ (fun v m => v.ty = m.2) values members) :
    (values.flatMap (·.data)).length = Ty.membersSize members := by
  induction typed with
  | nil => rfl
  | @cons v m values members hv _ ih =>
    rw [List.flatMap_cons, List.length_append, ih, v.size_eq, hv]
    rfl

/-- Values of the types of the members make a struct, one behind the other. -/
theorem ofMembers_total {ty : Ty} (struct : ty.isStruct) {values : List Value}
    (typed : List.Forall₂ (fun v m => v.ty = m.2) values ty.members) :
    ∃ v, ofMembers ty values = .ok v ∧ v.ty = ty ∧ v.data = values.flatMap (·.data) := by
  obtain ⟨hcount, htypes⟩ := List.forall₂_iff_zip.mp typed
  have hconverted : ∀ p ∈ values.zip ty.members, p.1.convert p.2.2 = .ok p.1 := fun p hp => by
    rw [convert, if_pos (htypes hp)]
  rw [ofMembers, Except.mapM_fst hconverted, List.map_fst_zip (Nat.le_of_eq hcount)]
  exact ofData_total struct
    ((length_flatMap_data typed).trans (Ty.size_eq_membersSize struct).symm)

end Value

namespace Builtin

/-- A function of matching components `s` that is evaluated on that many arguments. -/
def Takes (b : Builtin) (s : ScalarType) (count : Nat) : Bool :=
  match b with
  | .abs => s ≠ .uint && count = 1
  | .sign => s ≠ .uint && count = 1
  | .min | .max => count = 2
  | .clamp => count = 3
  | .atan => !s.isInteger && (count = 1 || count = 2)
  | .pow | .mod | .step => !s.isInteger && count = 2
  | .mix | .smoothstep => !s.isInteger && count = 3
  | b => !s.isInteger && !b.isReducing && count = 1

/-- Overloads that work on matching components have them: every parameter is a scalar or as long as
    the result. -/
def IsUniform (g : Signature) : Bool :=
  g.parameters.all (fun t => t.isBasic &&
    (t.isScalar || t.componentCount == g.result.componentCount)) &&
  g.result.component?.any fun s => g.builtin.Takes s g.parameters.length

/-- Overloads that depend on whole vectors take one or two, and a product across is one of three
    components. -/
def IsReduction (g : Signature) : Bool :=
  g.parameters.all Ty.isBasic &&
  match g.builtin, g.parameters with
  | .length, [_] | .normalize, [_] | .distance, [_, _] | .dot, [_, _] => true
  | .cross, [t, u] => t.componentCount = 3 && u.componentCount = 3
  | _, _ => false

theorem isReduction_or_isUniform {g : Signature} (h : g ∈ g.builtin.overloads) :
    if g.builtin.isReducing then IsReduction g else IsUniform g := by
  have hall : ∀ b ∈ all, b.overloads.all fun g =>
      if b.isReducing then IsReduction g else IsUniform g := List.all_eq_true.mp (by decide)
  have hmem : g.builtin ∈ all := by cases g.builtin <;> decide
  have hg := List.all_eq_true.mp (hall _ hmem) g h
  split at hg <;> simp_all

theorem argumentComponent?_total {v : Value} {count i : Nat} (basic : v.ty.isBasic)
    (shape : v.ty.isScalar = true ∨ v.ty.componentCount = count) (hi : i < count) :
    ∃ x, argumentComponent? v i = some x := by
  obtain ⟨s, hs⟩ := Ty.component?_of_isBasic basic
  have hin : (if v.ty.isScalar then 0 else i) < v.ty.componentCount := by
    split
    · rename_i hscalar
      cases hv : v.ty with
      | scalar => exact Nat.one_pos
      | void => simp [hv, Ty.isBasic] at basic
      | vector | matrix | struct => simp [hv, Ty.isScalar] at hscalar
    · rcases shape with h | h
      · contradiction
      · omega
  obtain ⟨x, hx, -⟩ := v.get?_total hs hin
  exact ⟨x, hx⟩

/-- Lists of one, two or three, as many as functions take. -/
theorem few_of_takes {b : Builtin} {s : ScalarType} {n : Nat} (takes : b.Takes s n) :
    n = 1 ∨ n = 2 ∨ n = 3 := by
  cases b <;> simp only [Takes, Bool.and_eq_true, Bool.or_eq_true, decide_eq_true_eq] at takes <;>
    omega

theorem component_total {b : Builtin} {xs : List Float} (takes : b.Takes .float xs.length) :
    ∃ x, b.component xs = some x := by
  obtain h | h | h := few_of_takes takes
  · obtain ⟨x, rfl⟩ := List.length_eq_one_iff.mp h
    cases b <;> first | exact ⟨_, rfl⟩ | simp [Takes, isReducing] at takes
  · obtain ⟨x, y, rfl⟩ := List.length_eq_two.mp h
    cases b <;> first | exact ⟨_, rfl⟩ | simp [Takes] at takes
  · obtain ⟨x, y, z, rfl⟩ := List.length_eq_three.mp h
    cases b <;> first | exact ⟨_, rfl⟩ | simp [Takes] at takes

theorem signedComponent_total {b : Builtin} {xs : List Int32} (takes : b.Takes .int xs.length) :
    ∃ x, b.signedComponent xs = some x := by
  obtain h | h | h := few_of_takes takes
  · obtain ⟨x, rfl⟩ := List.length_eq_one_iff.mp h
    cases b <;> first | exact ⟨_, rfl⟩ | simp [Takes, ScalarType.isInteger] at takes
  · obtain ⟨x, y, rfl⟩ := List.length_eq_two.mp h
    cases b <;> first | exact ⟨_, rfl⟩ | simp [Takes, ScalarType.isInteger] at takes
  · obtain ⟨x, y, z, rfl⟩ := List.length_eq_three.mp h
    cases b <;> first | exact ⟨_, rfl⟩ | simp [Takes, ScalarType.isInteger] at takes

theorem unsignedComponent_total {b : Builtin} {xs : List UInt32}
    (takes : b.Takes .uint xs.length) : ∃ x, b.unsignedComponent xs = some x := by
  obtain h | h | h := few_of_takes takes
  · obtain ⟨x, rfl⟩ := List.length_eq_one_iff.mp h
    cases b <;> simp [Takes, ScalarType.isInteger] at takes
  · obtain ⟨x, y, rfl⟩ := List.length_eq_two.mp h
    cases b <;> first | exact ⟨_, rfl⟩ | simp [Takes, ScalarType.isInteger] at takes
  · obtain ⟨x, y, z, rfl⟩ := List.length_eq_three.mp h
    cases b <;> first | exact ⟨_, rfl⟩ | simp [Takes, ScalarType.isInteger] at takes

/-- Every function has a value on as many components as it takes. -/
theorem scalarComponent_total {b : Builtin} {s : ScalarType} {xs : List Scalar}
    (takes : b.Takes s xs.length) : ∃ x, b.scalarComponent s xs = some x := by
  have hfloat (hs : b.Takes s xs.length = b.Takes .float xs.length) :
      ∃ x, b.component (xs.map (·.toBinary64.toFloat)) = some x :=
    component_total (by rw [List.length_map, ← hs]; exact takes)
  unfold scalarComponent
  cases s with
  | int =>
    have htakes : b.Takes .int (xs.map Scalar.toInt32).length := by simpa using takes
    obtain ⟨x, hx⟩ := signedComponent_total htakes
    exact ⟨_, by rw [hx]; rfl⟩
  | uint =>
    have htakes : b.Takes .uint (xs.map Scalar.toUInt32).length := by simpa using takes
    obtain ⟨x, hx⟩ := unsignedComponent_total htakes
    exact ⟨_, by rw [hx]; rfl⟩
  | float | double | bool =>
    obtain ⟨x, hx⟩ := hfloat rfl
    exact ⟨_, by rw [hx]; rfl⟩

theorem reduce_total {g : Signature} (reduction : IsReduction g) {arguments : List Value}
    (typed : arguments.map (·.ty) = g.parameters) :
    ∃ xs, g.builtin.reduce (arguments.map fun v => v.components.map (·.toBinary64.toFloat)) =
      some xs := by
  obtain ⟨hbasic, hshape⟩ := Bool.and_eq_true_iff.mp reduction
  have hlengths : (arguments.map fun v => v.components.map (·.toBinary64.toFloat)).map List.length =
      g.parameters.map Ty.componentCount := by
    rw [← typed, List.map_map, List.map_map]
    refine List.map_congr_left fun v hv => ?_
    have hv : v.ty.isBasic := List.all_eq_true.mp hbasic v.ty (typed ▸ List.mem_map_of_mem hv)
    simp [Value.length_components hv]
  generalize (arguments.map fun v => v.components.map (·.toBinary64.toFloat)) = vectors at hlengths ⊢
  revert hshape hlengths
  generalize g.parameters = parameters
  generalize g.builtin = b
  intro hshape hlengths
  split at hshape
  · obtain ⟨x, rfl⟩ := List.length_eq_one_iff.mp (by simpa using congrArg List.length hlengths)
    exact ⟨_, rfl⟩
  · obtain ⟨x, rfl⟩ := List.length_eq_one_iff.mp (by simpa using congrArg List.length hlengths)
    exact ⟨_, rfl⟩
  · obtain ⟨x, y, rfl⟩ := List.length_eq_two.mp (by simpa using congrArg List.length hlengths)
    exact ⟨_, rfl⟩
  · obtain ⟨x, y, rfl⟩ := List.length_eq_two.mp (by simpa using congrArg List.length hlengths)
    exact ⟨_, rfl⟩
  · rename_i t u
    obtain ⟨x, y, rfl⟩ := List.length_eq_two.mp (by simpa using congrArg List.length hlengths)
    obtain ⟨ht, hu⟩ : t.componentCount = 3 ∧ u.componentCount = 3 := by simpa using hshape
    simp only [List.map_cons, List.map_nil, List.cons.injEq, and_true, ht, hu] at hlengths
    obtain ⟨a, b, c, rfl⟩ := List.length_eq_three.mp hlengths.1
    obtain ⟨x, y, z, rfl⟩ := List.length_eq_three.mp hlengths.2
    exact ⟨_, rfl⟩
  · simp at hshape

end Builtin

theorem Signature.evaluate_total {g : Signature} (known : g ∈ g.builtin.overloads)
    {arguments : List Value} (typed : arguments.map (·.ty) = g.parameters) :
    ∃ v, g.evaluate arguments = some v := by
  have hknown := Builtin.isReduction_or_isUniform known
  unfold evaluate
  split at hknown
  · rename_i hreducing
    rw [if_pos hreducing]
    obtain ⟨xs, hxs⟩ := Builtin.reduce_total hknown typed
    exact ⟨_, Option.bind_eq_some_iff.mpr ⟨xs, hxs, rfl⟩⟩
  · rename_i hmatching
    rw [if_neg hmatching]
    obtain ⟨hparameters, hresult⟩ := Bool.and_eq_true_iff.mp hknown
    obtain ⟨s, hs, htakes⟩ : ∃ s, g.result.component? = some s ∧
        g.builtin.Takes s g.parameters.length := by
      cases hs : g.result.component? with
      | none => simp [hs] at hresult
      | some s => exact ⟨s, rfl, by simpa [hs] using hresult⟩
    have hcomponents (i : Nat) (hi : i < g.result.componentCount) :
        ∃ xs, arguments.mapM (Builtin.argumentComponent? · i) = some xs ∧
          xs.length = g.parameters.length := by
      obtain ⟨xs, hxs, hall⟩ := Option.mapM_total (P := fun _ _ => True) (l := arguments)
        (f := (Builtin.argumentComponent? · i)) fun v hv => by
          have hparameter := List.all_eq_true.mp hparameters v.ty (typed ▸ List.mem_map_of_mem hv)
          obtain ⟨hbasic, hshape⟩ := Bool.and_eq_true_iff.mp hparameter
          obtain ⟨x, hx⟩ := Builtin.argumentComponent?_total hbasic (by simpa using hshape) hi
          exact ⟨x, hx, trivial⟩
      refine ⟨xs, hxs, ?_⟩
      rw [← hall.length_eq, ← typed, List.length_map]
    obtain ⟨results, hresults, -⟩ := Option.mapM_total (P := fun _ _ => True)
      (l := List.range g.result.componentCount)
      (f := fun i => do
        g.builtin.scalarComponent s (← arguments.mapM (Builtin.argumentComponent? · i)))
      fun i hi => by
        obtain ⟨xs, hxs, hlength⟩ := hcomponents i (List.mem_range.mp hi)
        obtain ⟨x, hx⟩ := Builtin.scalarComponent_total (hlength ▸ htakes)
        exact ⟨x, by rw [hxs]; exact hx, trivial⟩
    exact ⟨_, Option.bind_eq_some_iff.mpr ⟨s, hs,
      Option.bind_eq_some_iff.mpr ⟨results, hresults, rfl⟩⟩⟩

namespace Function

/-- Arguments that implicit conversions take to the parameters. -/
theorem converted_total : ∀ {arguments : List Value} {parameters : List Ty},
    List.Forall₂ (fun v t => v.ty.convertsTo t = true) arguments parameters →
    ∃ converted, (arguments.zip parameters).mapM (fun (v, t) => (v.convert t).toOption) =
      some converted ∧ converted.map (·.ty) = parameters ∧
      List.Forall₂ (fun v w => v.convert w.ty = .ok w) arguments converted
  | [], [], .nil => ⟨[], rfl, rfl, .nil⟩
  | v :: _, t :: _, .cons hv rest => by
    obtain ⟨converted, hconverted, htypes, hrest⟩ := converted_total rest
    obtain ⟨w, hw⟩ := Option.isSome_iff_exists.mp (Value.convert_isSome hv)
    have hty := Value.ty_of_convert_toOption hw
    refine ⟨w :: converted, ?_, by rw [List.map_cons, hty, htypes],
      .cons (hty ▸ Except.toOption_eq_some.mp hw) hrest⟩
    rw [List.zip_cons_cons, List.mapM_cons]
    simp only [hw, hconverted]
    rfl

/-- The value of a call is made of its arguments, converted to the parameters. That `f` takes the
    arguments is what makes every conversion succeed. -/
theorem evaluate_eq {f : Function} {arguments : List Value}
    (accepted : List.Forall₂ (fun v t => v.ty.convertsTo t = true) arguments f.parameters) :
    ∃ converted, converted.map (·.ty) = f.parameters ∧
      List.Forall₂ (fun v w => v.convert w.ty = .ok w) arguments converted ∧
      f.evaluate arguments = match f with
        | .builtin g => g.evaluate converted
        | .constructor ty => (Value.ofMembers ty converted).toOption := by
  obtain ⟨converted, hconverted, htypes, hsteps⟩ := converted_total accepted
  refine ⟨converted, htypes, hsteps, ?_⟩
  rw [evaluate, hconverted]
  rfl

theorem typed_iff {ty : Ty} {values : List Value} :
    List.Forall₂ (fun v m => v.ty = m.2) values ty.members ↔
      values.map (·.ty) = (constructor ty).parameters := by
  change _ ↔ _ = ty.members.map (·.2)
  rw [← List.forall₂_eq_eq_eq, List.forall₂_map_left_iff, List.forall₂_map_right_iff]

/-- A struct takes members of exactly their types. None of them may be void, which does not even
    convert to itself. -/
theorem accepted_of_typed {ty : Ty} {values : List Value}
    (typed : List.Forall₂ (fun v m => v.ty = m.2) values ty.members)
    (present : ∀ v ∈ values, v.ty.isVoid = false) :
    List.Forall₂ (fun v t => v.ty.convertsTo t = true) values (constructor ty).parameters := by
  rw [← typed_iff.mp typed, List.forall₂_map_right_iff]
  exact List.forall₂_same.mpr fun v hv => Ty.convertsTo_self (present v hv)

/-- Members of exactly their types make a struct as they are. -/
theorem evaluate_constructor {ty : Ty} (struct : ty.isStruct) {values : List Value}
    (typed : List.Forall₂ (fun v m => v.ty = m.2) values ty.members)
    (present : ∀ v ∈ values, v.ty.isVoid = false) :
    ∃ v, (constructor ty).evaluate values = some v ∧ v.ty = ty ∧
      v.data = values.flatMap (·.data) := by
  obtain ⟨converted, htypes, hconverted, hevaluate⟩ :=
    evaluate_eq (accepted_of_typed typed present)
  have hsame : values.map (·.ty) = converted.map (·.ty) :=
    (typed_iff.mp typed).trans htypes.symm
  rw [← List.forall₂_eq_eq_eq, List.forall₂_map_left_iff, List.forall₂_map_right_iff] at hsame
  -- A conversion to a value's own type leaves the value alone.
  obtain rfl : values = converted := by
    rw [← List.forall₂_eq_eq_eq]
    refine List.Forall₂.mp (fun v w hty hw => ?_) hsame hconverted
    rw [Value.convert, if_pos hty] at hw
    exact Except.ok.inj hw
  obtain ⟨v, hv, hty, hdata⟩ := Value.ofMembers_total struct typed
  exact ⟨v, by rw [hevaluate]; simp only [hv]; rfl, hty, hdata⟩

/-- A call that passed its check has a value. -/
theorem evaluate_total {f : Function} (callable : f.IsCallable) {arguments : List Value}
    (accepted : List.Forall₂ (fun v t => v.ty.convertsTo t = true) arguments f.parameters) :
    ∃ v, f.evaluate arguments = some v ∧ v.ty = f.result := by
  obtain ⟨converted, htypes, -, hevaluate⟩ := evaluate_eq accepted
  have hvalue : ∃ v, f.evaluate arguments = some v := by
    rw [hevaluate]
    cases f with
    | builtin g => exact g.evaluate_total callable htypes
    | constructor ty =>
      obtain ⟨v, hv, -⟩ := Value.ofMembers_total callable (typed_iff.mpr htypes)
      exact ⟨v, by simp only [hv]; rfl⟩
  obtain ⟨v, hv⟩ := hvalue
  exact ⟨v, hv, ty_of_evaluate hv⟩

end Function

namespace Expr

/-- A node that has a value at compile time if its parts have. -/
def Evaluates : Expr → Prop
  | constant _ | negate _ | construct .. | call .. | member .. | swizzle .. => True
  | reference x => x.qualifier.isConstant
  | binary op _ _ _ => Folding.IsEvaluated op
  | assign .. => False

/-- An expression of constants, put together by what is evaluated. -/
abbrev IsConstant : Expr → Prop := All Evaluates

/-- How evaluation of an expression ends that meets no fault: it gives a value of the type of the
    expression if all in it is constant, and else finds that there is none. -/
def Settles (e : Expr) : Prop :=
  (e.IsConstant ∧ ∃ v, e.fold = .ok v ∧ v.ty = e.ty) ∨
    (¬e.IsConstant ∧ e.fold = .error .notConstant)

/-- A part without a value leaves none to the whole. -/
theorem Settles.of_part {e p : Expr} (hp : p ∈ e.parts) (h : ¬p.IsConstant)
    (fold : e.fold = .error .notConstant) : e.Settles :=
  .inr ⟨fun he => h (he.of_part p hp), fold⟩

/-- Arguments all have values, or there is one without a value. There is no third outcome where each
    argument has only these two. -/
theorem foldAll_settles : ∀ {es : List Expr}, (∀ e ∈ es, e.Settles) →
    ((∀ e ∈ es, e.IsConstant) ∧
      ∃ vs, foldAll es = .ok vs ∧ vs.map (·.ty) = es.map Expr.ty) ∨
    ((∃ e ∈ es, ¬e.IsConstant) ∧ foldAll es = .error .notConstant)
  | [], _ => .inl ⟨by simp, [], rfl, rfl⟩
  | e :: es, h => by
    rw [foldAll]
    rcases h e List.mem_cons_self with ⟨he, v, hv, hty⟩ | ⟨he, hfold⟩
    · rw [hv]
      rcases foldAll_settles fun p hp => h p (List.mem_cons_of_mem e hp) with
        ⟨hes, vs, hvs, htypes⟩ | ⟨⟨p, hp, hnot⟩, hes⟩
      · exact .inl ⟨by simpa using ⟨he, hes⟩, v :: vs, by rw [hvs]; rfl, by simp [hty, htypes]⟩
      · exact .inr ⟨⟨p, List.mem_cons_of_mem e hp, hnot⟩, by rw [hes]; rfl⟩
    · exact .inr ⟨⟨e, List.mem_cons_self, he⟩, by rw [hfold]; rfl⟩

/-- An expression of a single part has a value if that part has one. `value` and `none` say what
    evaluation makes of the outcome for the part. -/
theorem Settles.of_single {e p : Expr} (hparts : e.parts = [p]) (hp : p.Settles)
    (evaluates : e.Evaluates)
    (value : ∀ v, p.fold = .ok v → v.ty = p.ty → ∃ w, e.fold = .ok w ∧ w.ty = e.ty)
    (none : p.fold = .error .notConstant → e.fold = .error .notConstant) : e.Settles := by
  rcases hp with ⟨hp, v, hv, hty⟩ | ⟨hp, hfold⟩
  · exact .inl ⟨.node evaluates (by simpa [hparts] using hp), value v hv hty⟩
  · exact .of_part (by simp [hparts]) hp (none hfold)

theorem settles_reference {x : Variable} (hx : x.WellFormed) : (reference x).Settles := by
  by_cases hconstant : x.qualifier.isConstant = true
  · obtain ⟨v, hv⟩ := Option.isSome_iff_exists.mp (hx.constant hconstant).1
    refine .inl ⟨.node hconstant (by simp [parts]), v, ?_, (hx.initial v hv).1⟩
    rw [fold, Variable.constant?, if_pos hconstant, hv]
    rfl
  · refine .inr ⟨fun h => hconstant h.holds, ?_⟩
    rw [fold, Variable.constant?, if_neg hconstant]
    rfl

theorem fold_binary {op : Operator} (hop : Folding.IsEvaluated op) (ty : Ty) (left right : Expr) :
    (binary op ty left right).fold =
      left.fold >>= fun l => right.fold >>= fun r => Folding.binary op ty l r := by
  rw [fold]
  rcases hop with hop | hop <;> rw [hop]

theorem settles_binary {op : Operator} {ty : Ty} {left right : Expr}
    (typed : op.resultType left.ty right.ty = .ok ty) (hl : left.Settles) (hr : right.Settles) :
    (binary op ty left right).Settles := by
  by_cases hop : Folding.IsEvaluated op
  · have hfold := fold_binary hop ty left right
    rcases hl with ⟨hl, l, hlv, hlty⟩ | ⟨hl, hlv⟩
    · rcases hr with ⟨hr, r, hrv, hrty⟩ | ⟨hr, hrv⟩
      · refine .inl ⟨.node hop (by simp [parts, hl, hr]), ?_⟩
        rw [hfold, hlv, hrv]
        exact Folding.binary_total hop (by rw [hlty, hrty]; exact typed)
      · exact .of_part (by simp [parts]) hr (by rw [hfold, hlv, hrv]; rfl)
    · exact .of_part (by simp [parts]) hl (by rw [hfold, hlv]; rfl)
  · refine .inr ⟨fun h => hop h.holds, ?_⟩
    rw [fold]
    split
    · exact absurd (.inl ‹_›) hop
    · exact absurd (.inr ‹_›) hop
    · rfl

/-- An expression whose nodes passed their checks has a value if it is one of constants, and then
    the value has its type. It never meets a fault. -/
theorem WellTyped.settles {xs : List Variable} {e : Expr} (h : e.WellTyped xs)
    (declared : ∀ x ∈ xs, x.WellFormed) : e.Settles := by
  induction h with
  | @node e holds _ ih =>
    cases e with
    | constant v => exact .inl ⟨.node trivial (by simp [parts]), v, by rw [fold], rfl⟩
    | reference x => exact settles_reference (declared x holds)
    | binary op ty left right =>
      exact settles_binary holds (ih left (by simp [parts])) (ih right (by simp [parts]))
    | assign op ty target value => exact .inr ⟨fun h => h.holds, by rw [fold]⟩
    | negate operand =>
      refine .of_single rfl (ih operand (by simp [parts])) trivial (fun v hv hty => ?_) fun hv => ?_
      · rw [fold, hv, ty, ← hty]
        exact Folding.negation_total (hty ▸ holds.1) (hty ▸ holds.2)
      · rw [fold, hv]
        rfl
    | construct ty arguments =>
      have harguments : ∀ e ∈ arguments, e.Settles := ih
      rcases foldAll_settles harguments with ⟨hes, vs, hvs, htypes⟩ | ⟨⟨p, hp, hnot⟩, hes⟩
      · refine .inl ⟨.node trivial hes, ?_⟩
        rw [fold, hvs]
        refine Folding.construct_total fun v hv => ?_
        have hmem : v.ty ∈ arguments.map Expr.ty := htypes ▸ List.mem_map_of_mem hv
        obtain ⟨e, he, hty⟩ := List.mem_map.mp hmem
        rw [← hty]
        exact holds.2 e he
      · exact .of_part hp hnot (by rw [fold, hes]; rfl)
    | call f arguments =>
      have harguments : ∀ e ∈ arguments, e.Settles := ih
      rcases foldAll_settles harguments with ⟨hes, vs, hvs, htypes⟩ | ⟨⟨p, hp, hnot⟩, hes⟩
      · refine .inl ⟨.node trivial hes, ?_⟩
        have haccepted := holds.2
        rw [← htypes, List.forall₂_map_left_iff] at haccepted
        obtain ⟨v, hv, hty⟩ := Function.evaluate_total holds.1 haccepted
        rw [fold, hvs]
        exact ⟨v, by simp only [bind, Except.bind, hv]; rfl, hty⟩
      · exact .of_part hp hnot (by rw [fold, hes]; rfl)
    | member base index =>
      refine .of_single rfl (ih base (by simp [parts])) trivial (fun v hv hty => ?_) fun hv => ?_
      · obtain ⟨w, hw, hwty⟩ := Value.member?_total (v := v) (i := index) (hty ▸ holds)
        rw [fold, hv]
        exact ⟨w, by simp only [bind, Except.bind, hw]; rfl, by rw [hwty, hty]; rfl⟩
      · rw [fold, hv]
        rfl
    | swizzle base letters indexes =>
      obtain ⟨hshape, -, -, hinside⟩ := holds
      refine .of_single rfl (ih base (by simp [parts])) trivial (fun v hv hty => ?_) fun hv => ?_
      · rw [fold, hv]
        exact Folding.select_total (hty ▸ hshape) (hty ▸ hinside)
      · rw [fold, hv]
        rfl

/-- Where evaluation meets no fault, there is no value exactly for what is not one of constants. -/
theorem Settles.constant?_cases {e : Expr} (h : e.Settles) :
    e.IsConstant ∧ (∃ v, e.constant? = .ok (some v) ∧ v.ty = e.ty) ∨
      ¬e.IsConstant ∧ e.constant? = .ok none := by
  unfold Expr.constant?
  rcases h with ⟨hconstant, v, hv, hty⟩ | ⟨hvaries, hfold⟩
  · rw [hv]
    exact .inl ⟨hconstant, v, rfl, hty⟩
  · rw [hfold]
    exact .inr ⟨hvaries, rfl⟩

/-- Looking for the value of a constant meets no fault. -/
theorem Settles.constant? {e : Expr} (h : e.Settles) :
    (∃ v, e.constant? = .ok (some v) ∧ v.ty = e.ty) ∨ e.constant? = .ok none :=
  h.constant?_cases.imp And.right And.right

end Expr

end ShaderExpr
