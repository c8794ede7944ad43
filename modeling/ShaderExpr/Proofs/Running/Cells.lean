import ShaderExpr.Proofs.Build.Constants
import ShaderExpr.Proofs.Collections
import ShaderExpr.Proofs.Running.Datum

namespace ShaderExpr

namespace Value

variable {v w : Value} {ty : Ty} {s : ScalarType} {cs : List Scalar} {i : Nat} {x : Scalar}

theorem type_cell (hs : v.ty.component? = some s) (hi : i < v.ty.componentCount) :
    (v.cell i).type = s :=
  (get?_eq_cell hs hi).2

theorem cell_ofComponents (hs : ty.component? = some s) (hi : i < ty.componentCount)
    (hx : cs[i]? = some x) : (ofComponents ty cs).cell i = x.convert s := by
  rw [cell, get?_ofComponents hs hi hx, Option.getD_some]

/-- A component that has the component type already. -/
theorem cell_ofComponents_of_type (hs : ty.component? = some s) (hi : i < ty.componentCount)
    (hx : cs[i]? = some x) (hxs : x.type = s) : (ofComponents ty cs).cell i = x := by
  rw [cell_ofComponents hs hi hx, ← hxs, Scalar.convert_type]

/-- A value of which all components are known. -/
theorem datum_eq (basic : v.ty.isBasic) {f : Nat → Scalar}
    (h : ∀ i < v.ty.componentCount, v.cell i = f i) : v.datum = v.ty.build f := by
  rw [datum_eq_build basic, Ty.build_congr h]

theorem getElem?_components (basic : v.ty.isBasic) (hi : i < v.ty.componentCount) :
    v.components[i]? = some (v.cell i) := by
  rw [components_eq basic, List.getElem?_map, List.getElem?_range hi, Option.map_some]

/-- Conversion goes component by component. -/
theorem cell_of_convert (h : v.convert ty = .ok w) (basic : v.ty.isBasic)
    (hs : ty.component? = some s) (hi : i < ty.componentCount) :
    w.cell i = (v.cell i).convert s := by
  unfold convert at h
  split at h
  · rename_i hty
    obtain rfl := Except.ok.inj h
    rw [← hty] at hs hi
    rw [← type_cell hs hi, Scalar.convert_type]
  · split at h
    · rename_i hshape
      obtain rfl := Except.ok.inj h
      have hcount : v.ty.componentCount = ty.componentCount := by
        simpa [basic, Ty.isBasic_of_component? hs] using hshape
      exact cell_ofComponents hs hi (getElem?_components basic (hcount ▸ hi))
    · simp at h

end Value

namespace Folding

variable {op : Operator} {ty : Ty} {s : ScalarType} {l r v w : Value} {i : Nat} {x y z : Scalar}

theorem cell_of_component (h : component v i = .ok x) : v.cell i = x := by
  unfold component at h
  split at h
  · rename_i y hy
    rw [Value.cell, hy, Option.getD_some]
    exact Except.ok.inj h
  · simp at h

theorem type_of_combine (h : combine op x y = .ok z) : z.type = x.type := by
  unfold combine at h
  split at h
  all_goals first
    | rw [← Except.ok.inj h]; rfl
    | simp at h

theorem type_of_opposite (h : opposite x = .ok y) : y.type = x.type := by
  cases x <;> simp only [opposite, Except.ok.injEq, reduceCtorEq] at h <;> rw [← h] <;> rfl

/-- Component `i` of a term, where a single component stands for all. -/
def term (v : Value) (i : Nat) : Scalar := v.cell (if v.ty.componentCount = 1 then 0 else i)

theorem component_term (hs : ty.component? = some s) (term : Ty.IsTerm s ty v.ty)
    (hi : i < ty.componentCount) :
    component v (if v.ty.componentCount = 1 then 0 else i) = .ok (Folding.term v i) ∧
      (Folding.term v i).type = s := by
  obtain ⟨x, hx, hxs⟩ := pick_total hs term hi
  rw [Folding.term, cell_of_component hx]
  exact ⟨hx, hxs⟩

theorem cell_of_componentwise (hs : ty.component? = some s) (left : Ty.IsTerm s ty l.ty)
    (right : Ty.IsTerm s ty r.ty) (h : componentwise op ty l r = .ok v)
    (hi : i < ty.componentCount) : combine op (term l i) (term r i) = .ok (v.cell i) := by
  obtain ⟨results, hresults, hv⟩ := Except.bind_eq_ok.mp h
  obtain rfl := Except.ok.inj hv
  obtain ⟨z, hz, hcombine⟩ := Except.getElem?_mapM hresults (List.getElem?_range hi)
  obtain ⟨hl, hls⟩ := component_term hs left hi
  obtain ⟨hr, -⟩ := component_term hs right hi
  dsimp only at hcombine
  rw [hl, hr] at hcombine
  have hcombine : combine op (term l i) (term r i) = .ok z := hcombine
  rw [Value.cell_ofComponents_of_type hs hi hz ((type_of_combine hcombine).trans hls)]
  exact hcombine

theorem cell_of_reciprocal (hs : v.ty.component? = some s) (h : reciprocal s v = .ok w)
    (hi : i < v.ty.componentCount) : combine .div (.one s) (v.cell i) = .ok (w.cell i) := by
  obtain ⟨results, hresults, hw⟩ := Except.bind_eq_ok.mp h
  obtain rfl := Except.ok.inj hw
  obtain ⟨z, hz, hcombine⟩ := Except.getElem?_mapM hresults
    (Value.getElem?_components (Ty.isBasic_of_component? hs) hi)
  have htype : z.type = s := (type_of_combine hcombine).trans (Scalar.type_convert (.int 1) s)
  rw [Value.cell_ofComponents_of_type hs hi hz htype]
  exact hcombine

theorem ty_of_reciprocal (h : reciprocal s v = .ok w) : w.ty = v.ty := by
  obtain ⟨results, -, hw⟩ := Except.bind_eq_ok.mp h
  rw [← Except.ok.inj hw, Value.ofComponents_ty]

theorem cell_of_negation (basic : v.ty.isBasic) (h : negation v = .ok w)
    (hi : i < v.ty.componentCount) : opposite (v.cell i) = .ok (w.cell i) := by
  obtain ⟨s, hs⟩ := Ty.component?_of_isBasic basic
  rw [negation, if_pos basic] at h
  obtain ⟨results, hresults, hw⟩ := Except.bind_eq_ok.mp h
  obtain rfl := Except.ok.inj hw
  obtain ⟨z, hz, hopposite⟩ := Except.getElem?_mapM hresults (Value.getElem?_components basic hi)
  have htype : z.type = s := (type_of_opposite hopposite).trans (Value.type_cell hs hi)
  rw [Value.cell_ofComponents_of_type hs hi hz htype]
  exact hopposite

theorem foldlM_type {α : Type} {f : Scalar → α → Except Unfolded Scalar}
    (hf : ∀ x a y, f x a = .ok y → y.type = x.type) :
    ∀ {l : List α} {x y : Scalar}, l.foldlM f x = .ok y → y.type = x.type
  | [], x, y, h => congrArg Scalar.type (Except.ok.inj h).symm
  | a :: l, x, y, h => by
    rw [List.foldlM_cons] at h
    obtain ⟨z, hz, h⟩ := Except.bind_eq_ok.mp h
    exact (foldlM_type hf h).trans (hf x a z hz)

theorem type_of_contraction {rows inner row column : Nat}
    (h : contraction s l r rows inner row column = .ok x) : x.type = s := by
  refine (foldlM_type (fun sum k z hz => ?_) h).trans (Scalar.type_convert (.int 0) s)
  obtain ⟨a, -, hz⟩ := Except.bind_eq_ok.mp hz
  obtain ⟨b, -, hz⟩ := Except.bind_eq_ok.mp hz
  obtain ⟨c, -, hz⟩ := Except.bind_eq_ok.mp hz
  exact type_of_combine hz

theorem cell_of_product (hs : ty.component? = some s) {rows inner inner' columns : Nat}
    (left : extent true l.ty = some (rows, inner))
    (right : extent false r.ty = some (inner', columns))
    (count : ty.componentCount = columns * rows) (h : product s ty l r = .ok v)
    (hi : i < ty.componentCount) :
    contraction s l r rows inner (i % rows) (i / rows) = .ok (v.cell i) := by
  rw [product, left, right] at h
  dsimp only at h
  obtain ⟨results, hresults, h⟩ := Except.bind_eq_ok.mp h
  have hrows : 0 < rows := by
    rcases Nat.eq_zero_or_pos rows with hzero | hpos
    · rw [count, hzero, Nat.mul_zero] at hi
      exact absurd hi (Nat.not_lt_zero i)
    · exact hpos
  have hcolumn : i / rows < columns := (Nat.div_lt_iff_lt_mul hrows).mpr (count ▸ hi)
  have hrow : i % rows < rows := Nat.mod_lt i hrows
  obtain ⟨parts, hparts, hcontractions⟩ :=
    Except.getElem?_mapM hresults (List.getElem?_range hcolumn)
  obtain ⟨x, hx, hcontraction⟩ :=
    Except.getElem?_mapM hcontractions (List.getElem?_range hrow)
  have hlengths : ∀ xs ∈ results, xs.length = rows := by
    intro xs hxs
    obtain ⟨c, hc⟩ := List.mem_iff_getElem?.mp hxs
    have hlt : c < columns := by
      have hlength := (List.getElem?_eq_some_iff.mp hc).1
      rwa [Except.length_mapM hresults, List.length_range] at hlength
    obtain ⟨xs', hxs', hcolumn⟩ := Except.getElem?_mapM hresults (List.getElem?_range hlt)
    obtain rfl := Option.some.inj (hc.symm.trans hxs')
    rw [Except.length_mapM hcolumn, List.length_range]
  have hposition : results.flatten[i]? = some x := by
    have hflatten := List.getElem?_flatten_of_length hlengths hparts hrow
    rwa [Nat.div_add_mod', hx] at hflatten
  split at h
  · rename_i w hw
    obtain rfl := Except.ok.inj h
    unfold Value.ofComponents? at hw
    split at hw
    · rw [← Option.some.inj hw,
        Value.cell_ofComponents_of_type hs hi hposition (type_of_contraction hcontraction)]
      exact hcontraction
    · simp at hw
  · simp at h

/-- The component that is selected at a position. A scalar has the same one everywhere. -/
def pick (whole : Ty) (indexes : List Nat) (k : Nat) : Nat :=
  if whole.isScalar then 0 else indexes.getD k 0

theorem cell_of_select {indexes : List Nat} (hs : ty.component? = some s)
    (same : v.ty.component? = some s) (count : ty.componentCount = indexes.length)
    (h : select ty indexes v = .ok w) (hi : i < ty.componentCount) :
    w.cell i = v.cell (pick v.ty indexes i) := by
  obtain ⟨results, hresults, hw⟩ := Except.bind_eq_ok.mp h
  obtain rfl := Except.ok.inj hw
  have hindex : indexes[i]? = some (indexes.getD i 0) := by
    have hlt : i < indexes.length := count ▸ hi
    rw [List.getD_eq_getElem?_getD, List.getElem?_eq_getElem hlt, Option.getD_some]
  obtain ⟨x, hx, hcomponent⟩ := Except.getElem?_mapM hresults hindex
  have htype : x.type = s := by
    unfold component at hcomponent
    split at hcomponent
    · rename_i y hy
      rw [← Except.ok.inj hcomponent]
      rw [Value.get?, same, Option.bind_some] at hy
      exact Scalar.type_of_ofBytes? hy
    · simp at hcomponent
  rw [Value.cell_ofComponents_of_type hs hi hx htype, pick, cell_of_component hcomponent]

end Folding

end ShaderExpr
