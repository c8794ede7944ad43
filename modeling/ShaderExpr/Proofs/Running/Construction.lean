import ShaderExpr.Proofs.Build.Constructors
import ShaderExpr.Proofs.Build.Places
import ShaderExpr.Proofs.Collections
import ShaderExpr.Proofs.Running.Conversion

namespace ShaderExpr

open Folding Build

/-- A selection has as many components as it selects, of the type that the whole has them of. -/
theorem Ty.Selects.components {whole : Ty} {indexes : List Nat} (h : whole.Selects indexes) :
    ∃ s, whole.component? = Option.some s ∧
      (Expr.swizzleType whole indexes.length).component? = Option.some s ∧
      (Expr.swizzleType whole indexes.length).componentCount = indexes.length := by
  obtain ⟨s, hs, ⟨hone, htype⟩ | ⟨n, hn, htype⟩⟩ := h.swizzleType_cases
  · rw [htype, hone]
    exact ⟨s, hs, rfl, rfl⟩
  · rw [htype, hn]
    exact ⟨s, hs, rfl, rfl⟩

theorem Scalar.convert_zero (s : ScalarType) : (zero s).convert s = zero s :=
  convert_of_type (type_convert (.int 0) s)

theorem Scalar.convert_one (s : ScalarType) : (one s).convert s = one s :=
  convert_of_type (type_convert (.int 1) s)

/-- Data of a value, with its type. -/
def Value.quantity (v : Value) : Quantity := ⟨v.datum, v.ty⟩

namespace Machine

variable {M : Machine} {ty : Ty} {s : ScalarType} {f : Nat → Scalar} {v w : Value}
  {indexes : List Nat}

theorem cells_datum (basic : v.ty.isBasic) :
    v.datum.cells = (List.range v.ty.componentCount).map v.cell := by
  rw [Value.datum_eq_build basic, Ty.cells_build basic]

/-- A shuffle of the components of one vector with themselves. -/
theorem perform_vectorShuffle {n m : Dim} (hty : v.ty = .vector s n)
    (count : indexes.length = m.toNat)
    (inside : ∀ i ∈ indexes, i < n.toNat) :
    M.perform .vectorShuffle (.vector s m) [v.datum, v.datum] (indexes.map UInt32.ofNat) =
      (Ty.vector s m).build fun k => v.cell (indexes.getD k 0) := by
  have hn := n.toNat_bounds
  refine perform_eq rfl (Ty.fill?_eq_build fun k hk => ?_)
  have hk : k < indexes.length := count ▸ hk
  have hin := inside _ (List.getElem_mem hk)
  have hsmall : indexes[k] < 4294967296 := by omega
  rw [List.getElem?_map, List.getElem?_eq_getElem hk, Option.map_some, Option.bind_some,
    UInt32.toNat_ofNat_of_lt' hsmall, cells_datum (by rw [hty]; rfl), hty,
    List.getElem?_append_left (by simpa [Ty.componentCount] using hin)]
  simp [Ty.componentCount, hin, hk]

/-- Code that selects components of a value. -/
theorem selectComponents_eq_build (hv : v.ty.Selects indexes) :
    M.selectComponents v.datum v.ty (Expr.swizzleType v.ty indexes.length) indexes =
      (Expr.swizzleType v.ty indexes.length).build fun k => v.cell (pick v.ty indexes k) := by
  obtain ⟨s, hs, htype⟩ := hv.swizzleType_cases
  have hinside := hv.inside
  rcases hv.shape with ⟨s', hty⟩ | ⟨s', n, hty⟩ <;>
    obtain rfl : s' = s := by simpa [hty, Ty.component?] using hs
  · have hscalar : v.ty.isScalar = true := by rw [hty]; rfl
    have hdatum : v.datum = .scalar (v.cell 0) := datum_of_scalar hty
    have hpick : pick v.ty indexes = fun _ => 0 := by
      funext k
      rw [pick, if_pos hscalar]
    rw [selectComponents.eq_def, hscalar, hdatum, hpick]
    rcases htype with ⟨hone, htype⟩ | ⟨n, hn, htype⟩
    · obtain ⟨i, rfl⟩ := List.length_eq_one_iff.mp hone
      rw [htype]
      rfl
    · have hn' := n.toNat_bounds
      obtain ⟨i, j, rest, rfl⟩ := List.exists_of_two_le_length (hn ▸ hn'.1)
      rw [htype, hn]
      exact splat_eq_build (show (Ty.vector s' n).isBasic from rfl) rfl _
  · have hscalar : v.ty.isScalar = false := by rw [hty]; rfl
    have hpick : pick v.ty indexes = fun k => indexes.getD k 0 := by
      funext k
      rw [pick, hscalar]
      rfl
    have hinside (i : Nat) (hi : i ∈ indexes) : i < n.toNat := by
      have h := hv.inside i hi
      rw [hty] at h
      cases n <;> simpa [Ty.length, Dim.toNat] using h
    rw [selectComponents.eq_def, hscalar, hpick]
    rcases htype with ⟨hone, htype⟩ | ⟨m, hm, htype⟩
    · obtain ⟨i, rfl⟩ := List.length_eq_one_iff.mp hone
      rw [htype]
      exact part_datum_vector hty (hinside i List.mem_cons_self)
    · have hm' := m.toNat_bounds
      have hshuffle := perform_vectorShuffle (M := M) hty hm hinside
      obtain ⟨i, j, rest, rfl⟩ := List.exists_of_two_le_length (hm ▸ hm'.1)
      rw [htype]
      exact hshuffle

/-- The code of a selection gives what evaluation gives. -/
theorem select_datum (hv : v.ty.Selects indexes)
    (hw : select (Expr.swizzleType v.ty indexes.length) indexes v = .ok w) :
    M.selectComponents v.datum v.ty (Expr.swizzleType v.ty indexes.length) indexes = w.datum := by
  obtain ⟨s, hs, hs', hcount⟩ := hv.components
  have hty := ty_of_select hw
  rw [selectComponents_eq_build hv, ← hty]
  refine (Value.datum_eq (hty ▸ Ty.isBasic_of_component? hs') fun i hi => ?_).symm
  exact cell_of_select hs' hs hcount hw (hty ▸ hi)

/-- Positions stand where components of matrices do. -/
theorem getElem?_positions {columns rows column row : Nat} (hcolumn : column < columns)
    (hrow : row < rows) :
    (positions columns rows)[column * rows + row]? = some (column, row) := by
  have hlengths : ∀ l ∈ (List.range columns).map (fun column =>
      (List.range rows).map fun row => (column, row)), l.length = rows := by
    intro l hl
    obtain ⟨_, -, rfl⟩ := List.mem_map.mp hl
    simp
  have hcolumns : ((List.range columns).map fun column =>
      (List.range rows).map fun row => (column, row))[column]? =
        some ((List.range rows).map fun row => (column, row)) := by
    rw [List.getElem?_map, List.getElem?_range hcolumn, Option.map_some]
  rw [positions, List.flatMap_def, List.getElem?_flatten_of_length hlengths hcolumns hrow,
    List.getElem?_map, List.getElem?_range hrow, Option.map_some]

theorem assemble_eq_build {columns rows : Dim} {component : Nat → Nat → Datum}
    (h : ∀ column < columns.toNat, ∀ row < rows.toNat,
      component column row = .scalar (f (column * rows.toNat + row))) :
    assemble (.matrix s columns rows) s columns rows component =
      (Ty.matrix s columns rows).build f := by
  rw [← combined_matrix]
  refine congrArg (combined _) (List.map_congr_left fun column hcolumn => ?_)
  rw [← combined_vector]
  refine congrArg (combined _) (List.map_congr_left fun row hrow => ?_)
  exact h column (List.mem_range.mp hcolumn) row (List.mem_range.mp hrow)

variable {vs : List Value} {c : Scalar}

/-- An argument in the component type that is constructed. -/
theorem argument_datum (basic : v.ty.isBasic) (s : ScalarType) :
    ∃ w : Value, M.withComponent v.quantity s = w.quantity ∧ w.ty = v.ty.withComponent s ∧
      ∀ i < v.ty.componentCount, w.cell i = (v.cell i).convert s := by
  obtain ⟨w, hw, hty⟩ := operand_total s basic
  refine ⟨w, withComponent_datum basic hw, hty, fun i hi => ?_⟩
  have hs := Ty.component?_withComponent basic s
  have hcount := Ty.componentCount_withComponent basic s
  unfold operand at hw
  split at hw
  · simp at hw
  · split at hw
    · rename_i w' hconvert
      obtain rfl := Except.ok.inj hw
      exact Value.cell_of_convert hconvert basic hs (hcount ▸ hi)
    · simp at hw

/-- A type filled with a component. -/
theorem filled_datum (hs : ty.component? = some s) :
    filled ty (.scalar (c.convert s)) = (Value.ofComponents ty (spread ty c)).datum := by
  have basic := Ty.isBasic_of_component? hs
  have hw : (Value.ofComponents ty (spread ty c)).datum =
      ty.build (Value.ofComponents ty (spread ty c)).cell := by
    have h := Value.datum_eq_build (v := .ofComponents ty (spread ty c))
      (by rw [Value.ofComponents_ty]; exact basic)
    rwa [Value.ofComponents_ty] at h
  cases hflat : ty.isMatrix with
  | false =>
    have hfilled : filled ty (.scalar (c.convert s)) = splat (.scalar (c.convert s)) ty := by
      cases ty with
      | matrix => simp [Ty.isMatrix] at hflat
      | void | scalar | vector | struct => rfl
    have hspread : spread ty c = List.replicate ty.componentCount c := by
      cases ty with
      | matrix => simp [Ty.isMatrix] at hflat
      | void | scalar | vector | struct => rfl
    rw [hfilled, splat_eq_build basic hflat, hspread]
    exact (Value.datum_ofComponents hs fun i hi => ⟨c, by simp [hi], rfl⟩).symm
  | true =>
    cases ty with
    | void | scalar | vector | struct => simp [Ty.isMatrix] at hflat
    | matrix s' columns rows =>
      obtain rfl : s' = s := Option.some.inj hs
      rw [hw]
      refine assemble_eq_build fun column hcolumn row hrow => ?_
      have hposition : (spread (.matrix s' columns rows) c)[column * rows.toNat + row]? =
          some (if column = row then c else .zero s') := by
        rw [spread, List.getElem?_map, getElem?_positions hcolumn hrow, Option.map_some]
      rw [Value.cell_ofComponents hs (lt_count_of_position hcolumn hrow) hposition]
      by_cases hdiagonal : column = row
      · rw [if_pos hdiagonal, if_pos hdiagonal.symm]
      · rw [if_neg hdiagonal, if_neg (Ne.symm hdiagonal), zeroDatum_eq_build rfl,
          Scalar.convert_zero]
        rfl

/-- A matrix of other dimensions. -/
theorem resized_datum {columns rows columns' rows' : Dim} {source : Value}
    (hty : source.ty = .matrix s columns' rows')
    (hcells : ∀ i < columns'.toNat * rows'.toNat, source.cell i = (v.cell i).convert s)
    {results : List Scalar}
    (hresults : (positions columns.toNat rows.toNat).mapM (fun (column, row) =>
      if column < columns'.toNat ∧ row < rows'.toNat then
        component v (column * rows'.toNat + row)
      else .ok (if column = row then .one s else .zero s)) = .ok results) :
    resized s columns rows columns' rows' source.datum =
      (Value.ofComponents (.matrix s columns rows) results).datum := by
  rw [Value.datum_eq_build (v := .ofComponents (.matrix s columns rows) results)
    (by rw [Value.ofComponents_ty]; rfl), Value.ofComponents_ty]
  refine assemble_eq_build fun column hcolumn row hrow => ?_
  obtain ⟨x, hx, hcomponent⟩ := Except.getElem?_mapM hresults (getElem?_positions hcolumn hrow)
  rw [Value.cell_ofComponents rfl (lt_count_of_position hcolumn hrow) hx]
  dsimp only at hcomponent
  split at hcomponent
  · rename_i hinside
    rw [if_pos hinside, ← cell_of_component hcomponent,
      ← hcells _ (lt_count_of_position hinside.1 hinside.2)]
    change (source.datum.part column).part row = _
    rw [part_datum hty hinside.1, Ty.part_build_vector hinside.2]
  · rename_i hinside
    rw [if_neg hinside, ← Except.ok.inj hcomponent, oneDatum_eq_build rfl, zeroDatum_eq_build rfl]
    split
    · rw [Scalar.convert_one]
      rfl
    · rw [Scalar.convert_zero]
      rfl

/-- The components of a value one by one. -/
theorem componentData_datum (basic : v.ty.isBasic) :
    componentData v.quantity = v.components.map .scalar := by
  rw [Value.components_eq basic, List.map_map]
  unfold componentData Value.quantity
  dsimp only
  cases hty : v.ty with
  | void | struct => simp [hty, Ty.isBasic] at basic
  | scalar s =>
    rw [datum_of_scalar hty]
    rfl
  | vector s n =>
    exact List.map_congr_left fun i hi => part_datum_vector hty (List.mem_range.mp hi)
  | matrix s columns rows =>
    have hpositions : positions columns.toNat rows.toNat =
        (List.range (columns.toNat * rows.toNat)).map
          fun i => (i / rows.toNat, i % rows.toNat) := by
      cases columns <;> cases rows <;> rfl
    have hrows : 0 < rows.toNat := by cases rows <;> decide
    dsimp only
    rw [hpositions, List.map_map]
    refine List.map_congr_left fun i hi => ?_
    have hcolumn : i / rows.toNat < columns.toNat :=
      (Nat.div_lt_iff_lt_mul hrows).mpr (List.mem_range.mp hi)
    change (v.datum.part (i / rows.toNat)).part (i % rows.toNat) = .scalar (v.cell i)
    rw [part_datum hty hcolumn, Ty.part_build_vector (Nat.mod_lt i hrows), Nat.div_add_mod']

/-- The leading components of all arguments, in the component type that is constructed. -/
theorem gather_datum {count : Nat} (basic : ∀ v ∈ vs, v.ty.isBasic) (found : List Scalar) :
    M.gather s count (vs.map Value.quantity) (found.map .scalar) =
      ((found ++ (vs.flatMap (·.components)).map (·.convert s)).take count).map .scalar := by
  induction vs generalizing found with
  | nil => simp [gather]
  | cons v vs ih =>
    obtain ⟨w, hw, hwty, hcells⟩ := argument_datum (M := M) (basic v List.mem_cons_self) s
    have hcomponents : w.components = v.components.map (·.convert s) := by
      have hv := basic v List.mem_cons_self
      rw [Value.components_eq (hwty ▸ Ty.isBasic_withComponent hv s), Value.components_eq hv, hwty,
        Ty.componentCount_withComponent hv, List.map_map]
      exact List.map_congr_left fun i hi => hcells i (List.mem_range.mp hi)
    rw [List.map_cons, gather, List.length_map]
    split
    · rename_i henough
      rw [List.take_append_of_le_length henough, List.map_take]
    · rw [hw, componentData_datum (hwty ▸ Ty.isBasic_withComponent (basic v List.mem_cons_self) s),
        hcomponents, ← List.map_append,
        ih fun u hu => basic u (List.mem_cons_of_mem v hu), List.flatMap_cons, List.map_append,
        List.append_assoc]

/-- All components in order. Only the leading ones are taken, and there are `enough` of them. -/
theorem constructInOrder_datum (hs : ty.component? = some s) (basic : ∀ v ∈ vs, v.ty.isBasic)
    (enough : ty.componentCount ≤ (vs.flatMap (·.components)).length) :
    M.constructInOrder ty s (vs.map Value.quantity) =
      (Value.ofComponents ty (vs.flatMap (·.components))).datum := by
  generalize hcs : vs.flatMap (·.components) = cs at enough
  have hcomponents : M.gather s ty.componentCount (vs.map Value.quantity) [] =
      (List.range ty.componentCount).map fun i =>
        .scalar ((Value.ofComponents ty cs).cell i) := by
    rw [show ([] : List Datum) = [].map .scalar from rfl, gather_datum basic, List.nil_append, hcs]
    refine List.ext_getElem (by simp [enough]) fun i hi hi' => ?_
    have hi : i < ty.componentCount := by simpa using hi'
    have hx : cs[i]? = some cs[i] := List.getElem?_eq_getElem (Nat.lt_of_lt_of_le hi enough)
    simp [Value.cell_ofComponents hs hi hx]
  have hdatum : (Value.ofComponents ty cs).datum = ty.build (Value.ofComponents ty cs).cell := by
    have h := Value.datum_eq_build (v := .ofComponents ty cs)
      (by rw [Value.ofComponents_ty]; exact Ty.isBasic_of_component? hs)
    rwa [Value.ofComponents_ty] at h
  unfold constructInOrder
  dsimp only
  rw [hcomponents, hdatum]
  cases ty with
  | void | struct => simp [Ty.component?] at hs
  | scalar => rfl
  | vector s' n => exact combined_vector _
  | matrix s' columns rows =>
    rw [← combined_matrix]
    refine congrArg (combined _) (List.map_congr_left fun column hcolumn => ?_)
    have hcolumn := List.mem_range.mp hcolumn
    have hinside : column * rows.toNat + rows.toNat ≤ columns.toNat * rows.toNat := by
      have hle : (column + 1) * rows.toNat ≤ columns.toNat * rows.toNat :=
        Nat.mul_le_mul_right _ hcolumn
      rwa [Nat.add_one_mul] at hle
    rw [Ty.componentCount, List.drop_take_map_range hinside]
    exact combined_vector _

theorem length_flatMap_components (basic : ∀ v ∈ vs, v.ty.isBasic) :
    (vs.flatMap (·.components)).length = Ty.totalCount (vs.map (·.ty)) := by
  induction vs with
  | nil => rfl
  | cons v vs ih =>
    rw [List.flatMap_cons, List.length_append, Value.length_components (basic v List.mem_cons_self),
      ih fun u hu => basic u (List.mem_cons_of_mem v hu)]
    rfl

/-- A single scalar fills the type that is constructed. -/
theorem construct_datum_of_scalar {s' : ScalarType} (hs : ty.component? = some s)
    (hv : v.ty = .scalar s') (hw : Folding.construct ty [v] = .ok w) :
    M.construct ty [v.quantity] = w.datum := by
  obtain ⟨u, hu, huty, hcells⟩ := argument_datum (M := M) (v := v) (by rw [hv]; rfl) s
  have hscalar : v.ty.isScalar = true := by rw [hv]; rfl
  unfold Folding.construct at hw
  dsimp only at hw
  rw [if_pos hscalar] at hw
  obtain ⟨c, hc, hw⟩ := Except.bind_eq_ok.mp hw
  obtain rfl := Except.ok.inj hw
  have hdatum : u.datum = .scalar (c.convert s) := by
    rw [datum_of_scalar (s := s) (by rw [huty, hv]; rfl), hcells 0 (by rw [hv]; exact Nat.one_pos),
      cell_of_component hc]
  rw [construct, hs, Option.map_some, Option.getD_some]
  unfold constructOf
  dsimp only
  rw [if_pos (show v.quantity.ty.isScalar = true from hscalar), hu]
  exact (congrArg (filled ty) hdatum).trans (filled_datum hs)

/-- A single matrix is cut or continued. -/
theorem construct_datum_of_matrix {columns rows columns' rows' : Dim} {s' : ScalarType}
    (hv : v.ty = .matrix s' columns' rows')
    (hw : Folding.construct (.matrix s columns rows) [v] = .ok w) :
    M.construct (.matrix s columns rows) [v.quantity] = w.datum := by
  obtain ⟨u, hu, huty, hcells⟩ := argument_datum (M := M) (v := v) (by rw [hv]; rfl) s
  have hquantity : v.quantity.ty = v.ty := rfl
  have hmatrix : ¬v.ty.isScalar = true := by rw [hv]; exact Bool.false_ne_true
  unfold Folding.construct at hw
  dsimp only at hw
  rw [if_neg hmatrix, hv] at hw
  obtain ⟨results, hresults, hw⟩ := Except.bind_eq_ok.mp hw
  obtain rfl := Except.ok.inj hw
  change M.constructOf (.matrix s columns rows) s [v.quantity] = _
  unfold constructOf
  dsimp only
  rw [hquantity, if_neg hmatrix, hv]
  dsimp only
  rw [hu]
  exact resized_datum (by rw [huty, hv]; rfl) (by rw [hv] at hcells; exact hcells) hresults

/-- All other arguments give their components in order. -/
theorem construct_components
    (several : ∀ v, vs = [v] → v.ty.isScalar = false ∧ ¬(ty.isMatrix ∧ v.ty.isMatrix)) :
    Folding.construct ty vs = .ok (.ofComponents ty (vs.flatMap (·.components))) := by
  unfold Folding.construct
  split
  · rename_i v
    obtain ⟨hscalar, hmatrices⟩ := several v rfl
    rw [if_neg (by simp [hscalar])]
    split
    · rename_i hty
      exact absurd ⟨rfl, by rw [hty]; rfl⟩ hmatrices
    · rw [List.flatMap_singleton]
  · rfl

theorem construct_datum_of_components (hs : ty.component? = some s)
    (basic : ∀ v ∈ vs, v.ty.isBasic) (enough : ty.componentCount ≤ Ty.totalCount (vs.map (·.ty)))
    (several : ∀ v, vs = [v] → v.ty.isScalar = false ∧ ¬(ty.isMatrix ∧ v.ty.isMatrix))
    (hw : Folding.construct ty vs = .ok w) : M.construct ty (vs.map Value.quantity) = w.datum := by
  have hvalue : w = Value.ofComponents ty (vs.flatMap (·.components)) :=
    Except.ok.inj (hw.symm.trans (construct_components several))
  have hcode : M.construct ty (vs.map Value.quantity) =
      M.constructInOrder ty s (vs.map Value.quantity) := by
    rw [construct, hs, Option.map_some, Option.getD_some]
    unfold constructOf
    split
    · rename_i x hx
      obtain ⟨v, rfl, rfl⟩ := List.map_eq_singleton_iff.mp hx
      obtain ⟨hscalar, hmatrices⟩ := several v rfl
      rw [if_neg (show ¬v.quantity.ty.isScalar = true by rw [Value.quantity]; simp [hscalar])]
      split
      · rename_i hty
        exact absurd ⟨rfl, by rw [show v.ty = _ from hty]; rfl⟩ hmatrices
      · rfl
    · rfl
  rw [hcode, hvalue]
  exact constructInOrder_datum hs basic (length_flatMap_components basic ▸ enough)

/-- Arguments that fill a type are a single scalar, a single matrix for a matrix, or have all the
    components that the type needs. -/
theorem arguments_cases (fills : ty.FilledBy (vs.map (·.ty))) :
    (∃ v s, vs = [v] ∧ v.ty = .scalar s) ∨
    (∃ v s s' columns rows columns' rows', vs = [v] ∧ v.ty = .matrix s' columns' rows' ∧
      ty = .matrix s columns rows) ∨
    (ty.componentCount ≤ Ty.totalCount (vs.map (·.ty)) ∧
      ∀ v, vs = [v] → v.ty.isScalar = false ∧ ¬(ty.isMatrix ∧ v.ty.isMatrix)) := by
  by_cases hsingle : ∃ v, vs = [v] ∧ (v.ty.isScalar ∨ ty.isMatrix ∧ v.ty.isMatrix)
  · obtain ⟨v, rfl, hsingle⟩ := hsingle
    have hv : v.ty.isBasic := fills.isBasic _ (by simp)
    cases hvty : v.ty with
    | void | struct => simp [hvty, Ty.isBasic] at hv
    | vector => simp [hvty, Ty.isScalar, Ty.isMatrix] at hsingle
    | scalar s => exact .inl ⟨v, s, rfl, hvty⟩
    | matrix s' columns' rows' =>
      cases ty with
      | matrix s columns rows => exact .inr (.inl ⟨v, s, s', _, _, _, _, rfl, hvty, rfl⟩)
      | void | scalar | vector | struct => simp [hvty, Ty.isScalar, Ty.isMatrix] at hsingle
  · have hseveral (v : Value) (hv : vs = [v]) :
        v.ty.isScalar = false ∧ ¬(ty.isMatrix ∧ v.ty.isMatrix) := by
      have h : ¬(v.ty.isScalar ∨ ty.isMatrix ∧ v.ty.isMatrix) := fun h => hsingle ⟨v, hv, h⟩
      exact ⟨by simpa using fun hscalar => h (.inl hscalar), fun hmatrices => h (.inr hmatrices)⟩
    refine .inr (.inr ⟨fills.enough fun t ht => ?_, hseveral⟩)
    obtain ⟨v, hv, rfl⟩ := List.map_eq_singleton_iff.mp ht
    exact hseveral v hv

/-- The code of a constructor gives what evaluation gives. The arguments fill the type, so each of
    its components comes from one of theirs or from the identity. -/
theorem construct_datum (hty : ty.isBasic) (fills : ty.FilledBy (vs.map (·.ty)))
    (hw : Folding.construct ty vs = .ok w) : M.construct ty (vs.map Value.quantity) = w.datum := by
  obtain ⟨s, hs⟩ := Ty.component?_of_isBasic hty
  rcases arguments_cases fills with ⟨v, s', rfl, hv⟩ |
    ⟨v, s, s', columns, rows, columns', rows', rfl, hv, rfl⟩ | ⟨henough, hseveral⟩
  · exact construct_datum_of_scalar hs hv hw
  · exact construct_datum_of_matrix hv hw
  · exact construct_datum_of_components hs (fun v hv => fills.isBasic _ (List.mem_map_of_mem hv))
      henough hseveral hw

/-- Members that are put together are found again. -/
theorem memberData_flatMap : ∀ {vs : List Value} {members : List (String × Ty)},
    List.Forall₂ (fun v m => v.ty = m.2) vs members →
      Ty.memberData members (vs.flatMap (·.data)) = vs.map (·.datum)
  | [], [], _ => rfl
  | v :: vs, (name, t) :: members, h => by
    obtain ⟨hv, hvs⟩ := List.forall₂_cons.mp h
    have hv : v.ty = t := hv
    have hlength : v.data.length = t.size := by rw [v.size_eq, hv]
    rw [List.flatMap_cons, Ty.memberData, List.take_left' hlength, List.drop_left' hlength,
      memberData_flatMap hvs, List.map_cons, Value.datum, hv]

/-- A struct holds the data of its members. -/
theorem datum_of_ofMembers {name : Option String} {members : List (String × Ty)}
    (typed : List.Forall₂ (fun v m => v.ty = m.2) vs members)
    (h : Value.ofMembers (.struct name members) vs = .ok w) :
    w.datum = .composite (vs.map (·.datum)) := by
  have hstruct : (Ty.struct name members).isStruct := rfl
  obtain ⟨v, hv, hty, hdata⟩ := Value.ofMembers_total hstruct typed
  obtain rfl := Except.ok.inj (hv.symm.trans h)
  rw [Value.datum, hty, hdata, Ty.datum, memberData_flatMap typed]

/-- Taking a member out of data is that of values. -/
theorem part_member {i : Nat} (h : v.member? i = some w) : v.datum.part i = w.datum := by
  obtain ⟨⟨name, t⟩, hmember, hw⟩ := Option.bind_eq_some_iff.mp h
  rw [Value.datum_of_ofBytes? hw, Value.datum, Ty.memberOffset]
  cases hty : v.ty with
  | void | scalar | vector | matrix => simp [hty, Ty.members] at hmember
  | struct structName members =>
    have hmember : members[i]? = some (name, t) := by rw [← hmember, hty]; rfl
    rw [Ty.datum, Datum.part, Datum.parts, List.getD_eq_getElem?_getD, memberData_eq_map,
      List.getElem?_map, getElem?_memberPieces, hmember]
    rfl

/-- Implicit conversions of data are those of values. -/
theorem convert_datum_of_convertsTo {t : Ty} (fits : v.ty.convertsTo t) (hw : v.convert t = .ok w) :
    M.convert v.datum v.ty t = w.datum := by
  by_cases hsame : v.ty = t
  · rw [Value.convert, if_pos hsame] at hw
    unfold convert
    rw [if_pos hsame, Except.ok.inj hw]
  · obtain ⟨basic, s, rfl⟩ : v.ty.isBasic ∧ ∃ s, t = v.ty.withComponent s := by
      generalize v.ty = u at fits hsame
      cases u <;> cases t <;> simp_all [Ty.convertsTo, Ty.isBasic, Ty.withComponent]
    exact convert_datum basic hw

/-- Arguments in the types of their parameters. -/
theorem arguments_datum : ∀ {vs cs : List Value} {ts : List Ty},
    List.Forall₂ (fun t u => t.convertsTo u = true) (vs.map (·.ty)) ts →
    (vs.zip ts).mapM (fun (v, t) => (v.convert t).toOption) = some cs →
      List.zipWith (fun v t => M.convert v.datum v.ty t) vs ts = cs.map (·.datum) ∧
        List.Forall₂ (fun c t => c.ty = t) cs ts
  | [], cs, ts, accepted, h => by
    cases accepted
    obtain rfl := Option.some.inj h
    exact ⟨rfl, .nil⟩
  | v :: vs, cs, ts, accepted, h => by
    obtain _ | @⟨_, t, _, ts, fits, accepted⟩ := accepted
    rw [List.zip_cons_cons, List.mapM_cons] at h
    obtain ⟨c, hc, h⟩ := Option.bind_eq_some_iff.mp h
    obtain ⟨rest, hrest, h⟩ := Option.bind_eq_some_iff.mp h
    obtain rfl := Option.some.inj h
    obtain ⟨hdata, htypes⟩ := arguments_datum accepted hrest
    have hconvert : v.convert t = .ok c := Except.toOption_eq_some.mp hc
    rw [List.zipWith_cons_cons, convert_datum_of_convertsTo fits hconvert, hdata, List.map_cons]
    exact ⟨rfl, .cons (Value.ty_of_convert hconvert) htypes⟩

/-- The code of a call that makes a struct gives what evaluation gives. -/
theorem make_datum (struct : ty.isStruct)
    (accepted : List.Forall₂ (fun t u => t.convertsTo u = true) (vs.map (·.ty))
      (Function.constructor ty).parameters)
    (hw : (Function.constructor ty).evaluate vs = some w) :
    combined ty (List.zipWith (fun v t => M.convert v.datum v.ty t) vs
      (Function.constructor ty).parameters) = w.datum := by
  obtain ⟨cs, hcs, hw⟩ := Option.bind_eq_some_iff.mp hw
  obtain ⟨hdata, htypes⟩ := arguments_datum (M := M) accepted hcs
  have hw : (Value.ofMembers ty cs).toOption = some w := hw
  rw [hdata]
  change List.Forall₂ _ cs (ty.members.map (·.2)) at htypes
  rw [List.forall₂_map_right_iff] at htypes
  cases ty with
  | void | scalar | vector | matrix => simp [Ty.isStruct] at struct
  | struct name members =>
    rw [datum_of_ofMembers htypes (Except.toOption_eq_some.mp hw)]
    rfl

end Machine

end ShaderExpr
