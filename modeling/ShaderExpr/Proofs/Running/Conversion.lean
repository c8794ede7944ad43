import ShaderExpr.Proofs.Running.Cells
import ShaderExpr.Proofs.Running.Meaning

namespace ShaderExpr

theorem Ty.bare_of_isBasic {ty : Ty} (basic : ty.isBasic) : ty.bare = ty := by
  cases ty with
  | void | struct => simp [isBasic] at basic
  | scalar | vector | matrix => rfl

namespace Value

variable {v : Value} {ty : Ty} {s : ScalarType} {i : Nat}

theorem cell?_datum (basic : v.ty.isBasic) (hi : i < v.ty.componentCount) :
    v.datum.cell? i = some (v.cell i) := by
  rw [datum_eq_build basic, Ty.cell?_build basic hi]

theorem ofBytes?_zero (s : ScalarType) :
    Scalar.ofBytes? s (List.replicate s.size 0) = some (.zero s) := by
  cases s <;> decide +kernel

theorem cell_zero (hs : ty.component? = some s) (hi : i < ty.componentCount) :
    (zero ty).cell i = .zero s := by
  have hbytes : ((List.replicate ty.size (0 : UInt8)).drop (i * s.size)).take s.size =
      List.replicate s.size 0 := by
    have hle : (i + 1) * s.size ≤ ty.size := by
      rw [size_of_component? hs, Nat.mul_comm s.size]
      exact Nat.mul_le_mul_right _ hi
    rw [Nat.add_one_mul] at hle
    rw [List.drop_replicate, List.take_replicate, Nat.min_eq_left (by omega)]
  have hget : (zero ty).get? i = some (.zero s) := by
    change ty.component?.bind _ = _
    rw [hs, Option.bind_some]
    exact (congrArg (Scalar.ofBytes? s) hbytes).trans (ofBytes?_zero s)
  rw [cell, hget, Option.getD_some]

end Value

theorem Scalar.convert_of_type {x : Scalar} {s : ScalarType} (h : x.type = s) :
    x.convert s = x := by
  rw [← h, convert_type]

/-- A boolean is converted to one or to zero. -/
theorem Scalar.convert_bool (b : Bool) (s : ScalarType) :
    (Scalar.bool b).convert s = if b then .one s else .zero s := by
  cases b <;> cases s <;> decide +kernel

namespace Machine

variable {M : Machine} {ty source target : Ty} {s s' : ScalarType} {x y d : Datum}
  {f : Nat → Scalar} {op : Opcode} {data : List Datum} {numbers : List UInt32}

theorem perform_eq (basic : ty.isBasic) (h : known? op ty data numbers = some d) :
    M.perform op ty data numbers = d := by
  rw [perform, Ty.bare_of_isBasic basic, apply, h, Option.getD_some]

theorem combined_vector {n : Dim} (f : Nat → Scalar) :
    combined (.vector s n) ((List.range n.toNat).map fun i => .scalar (f i)) =
      (Ty.vector s n).build f := by
  have hcells : ((List.range n.toNat).map fun i => Datum.scalar (f i)).flatMap (·.cells) =
      (List.range n.toNat).map f := by
    rw [List.flatMap_map]
    exact List.map_eq_flatMap.symm
  have hcombined (parts : List Datum) : combined (.vector s n) parts =
      .composite ((parts.flatMap (·.cells)).map .scalar) := rfl
  rw [hcombined, hcells, List.map_map]
  rfl

theorem combined_matrix {columns rows : Dim} (f : Nat → Scalar) :
    combined (.matrix s columns rows) ((List.range columns.toNat).map fun column =>
      (Ty.vector s rows).build fun row => f (column * rows.toNat + row)) =
        (Ty.matrix s columns rows).build f := rfl

theorem splat_eq_build (basic : ty.isBasic) (flat : ty.isMatrix = false) (c : Scalar) :
    splat (.scalar c) ty = ty.build fun _ => c := by
  cases ty with
  | void | struct => simp [Ty.isBasic] at basic
  | matrix => simp [Ty.isMatrix] at flat
  | scalar => rfl
  | vector s n =>
    rw [← combined_vector, List.map_const', List.length_range]
    rfl

theorem zeroDatum_eq_build (hs : ty.component? = some s) :
    zeroDatum ty = ty.build fun _ => .zero s :=
  Value.datum_eq (v := .zero ty) (Ty.isBasic_of_component? hs) fun _ hi => Value.cell_zero hs hi

theorem oneDatum_eq_build (hs : ty.component? = some s) :
    oneDatum ty = ty.build fun _ => .one s := by
  unfold oneDatum
  rw [hs]
  refine Value.datum_ofComponents hs fun i hi => ⟨.one s, by simp [hi], ?_⟩
  exact Scalar.convert_of_type (Scalar.type_convert (.int 1) s)

theorem isZero_zeroDatum (hs : ty.component? = some s) : isZero (zeroDatum ty) := by
  rw [zeroDatum_eq_build hs, isZero, Ty.cells_build (Ty.isBasic_of_component? hs)]
  simp only [List.all_map, List.all_eq_true, Function.comp_apply, decide_eq_true_eq]
  intro _ _
  rw [show (Scalar.zero s).type = s from Scalar.type_convert (.int 0) s]

theorem converted?_eq_build (hx : ∀ i < ty.componentCount, x.cell? i = some (f i)) :
    converted? s ty x = some (ty.build fun i => (f i).convert s) :=
  Ty.fill?_eq_build fun i hi => by rw [hx i hi, Option.map_some]

/-- Components of a type are converted to another one. -/
theorem convertComponents_eq_build (hs : source.component? = some s)
    (hs' : target.component? = some s') (different : s ≠ s')
    (hx : ∀ i < target.componentCount, x.cell? i = some (f i))
    (types : ∀ i < target.componentCount, (f i).type = s) :
    M.convertComponents x source target = target.build fun i => (f i).convert s' := by
  have basic := Ty.isBasic_of_component? hs'
  have hconverted : converted? s' target x = some (target.build fun i => (f i).convert s') :=
    converted?_eq_build hx
  have hplain (op : Opcode) (hop : known? op target [x] [] =
      target.component?.bind fun s => converted? s target x) :
      M.perform op target [x] [] = target.build fun i => (f i).convert s' :=
    perform_eq basic (by rw [hop, hs', Option.bind_some, hconverted])
  have hzero (op : Opcode) (hbool : s' = .bool) (hop : known? op target [x, zeroDatum source] [] =
      if isZero (zeroDatum source) then converted? .bool target x else none) :
      M.perform op target [x, zeroDatum source] [] = target.build fun i => (f i).convert s' :=
    perform_eq basic (by rw [hop, if_pos (isZero_zeroDatum hs), ← hbool, hconverted])
  have hselect (hbool : s = .bool) :
      M.perform .select target [x, oneDatum target, zeroDatum target] [] =
        target.build fun i => (f i).convert s' := by
    refine perform_eq basic (Ty.fill?_eq_build fun i hi => ?_)
    obtain ⟨b, hb⟩ : ∃ b, f i = .bool b := by
      have htype := (types i hi).trans hbool
      revert htype
      cases f i <;> simp [Scalar.type]
    rw [hx i hi, oneDatum_eq_build hs', zeroDatum_eq_build hs', Ty.cell?_build basic hi,
      Ty.cell?_build basic hi, hb, Scalar.convert_bool]
    rfl
  unfold convertComponents
  rw [hs, hs']
  cases s <;> cases s' <;> first
    | exact absurd rfl different
    | exact hselect rfl
    | exact hzero _ rfl rfl
    | exact hplain _ rfl

theorem datum_of_scalar {v : Value} (hty : v.ty = .scalar s) : v.datum = .scalar (v.cell 0) := by
  rw [Value.datum_eq_build (by rw [hty]; rfl), hty]
  rfl

theorem part_datum_vector {v : Value} {n : Dim} (hty : v.ty = .vector s n) {i : Nat}
    (hi : i < n.toNat) : v.datum.part i = .scalar (v.cell i) := by
  rw [Value.datum_eq_build (by rw [hty]; rfl), hty, Ty.part_build_vector hi]

/-- A column of a matrix. -/
theorem part_datum {v : Value} {columns rows : Dim} (hty : v.ty = .matrix s columns rows)
    {column : Nat} (hcolumn : column < columns.toNat) :
    v.datum.part column =
      (Ty.vector s rows).build fun row => v.cell (column * rows.toNat + row) := by
  have basic : v.ty.isBasic := by rw [hty]; rfl
  rw [Value.datum_eq_build basic, hty, Ty.part_build_matrix hcolumn]

/-- Conversion of data to the same shape over another component type is that of values. -/
theorem convert_datum {v w : Value} (basic : v.ty.isBasic)
    (h : v.convert (v.ty.withComponent s') = .ok w) :
    M.convert v.datum v.ty (v.ty.withComponent s') = w.datum := by
  obtain ⟨s, hs⟩ := Ty.component?_of_isBasic basic
  have hs' := Ty.component?_withComponent basic s'
  have hcount := Ty.componentCount_withComponent basic s'
  have hw : w.datum = (v.ty.withComponent s').build fun i => (v.cell i).convert s' := by
    rw [← Value.ty_of_convert h]
    refine Value.datum_eq (Value.ty_of_convert h ▸ Ty.isBasic_of_component? hs') fun i hi => ?_
    exact Value.cell_of_convert h basic hs' (Value.ty_of_convert h ▸ hi)
  by_cases hsame : v.ty = v.ty.withComponent s'
  · rw [Value.convert, if_pos hsame] at h
    unfold convert
    rw [if_pos hsame]
    rw [Except.ok.inj h]
  · have hdifferent : s ≠ s' := by
      rintro rfl
      refine hsame ?_
      cases hty : v.ty <;> simp only [hty, Ty.component?, Option.some.injEq, reduceCtorEq] at hs <;>
        rw [hs] <;> rfl
    have hplain : M.convertComponents v.datum v.ty (v.ty.withComponent s') = w.datum := by
      rw [hw]
      refine convertComponents_eq_build hs hs' hdifferent (fun i hi => ?_) fun i hi => ?_
      · exact Value.cell?_datum basic (hcount ▸ hi)
      · exact Value.type_cell hs (hcount ▸ hi)
    unfold convert
    rw [if_neg hsame]
    cases hty : v.ty with
    | void | struct => simp [hty, Ty.isBasic] at basic
    | scalar | vector =>
      rw [hty] at hplain
      exact hplain
    | matrix s₁ columns rows =>
      obtain rfl : s₁ = s := by simpa [hty, Ty.component?] using hs
      rw [hty] at hw
      have hcolumns : (List.range columns.toNat).map (fun i =>
          M.convertPlain (v.datum.part i) (.vector s₁ rows) (.vector s' rows)) =
          (List.range columns.toNat).map fun column => (Ty.vector s' rows).build fun row =>
            (v.cell (column * rows.toNat + row)).convert s' := by
        refine List.map_congr_left fun column hcolumn => ?_
        have hcolumn := List.mem_range.mp hcolumn
        rw [part_datum hty hcolumn, convertPlain, if_neg (by simpa using hdifferent)]
        refine convertComponents_eq_build rfl rfl hdifferent
          (fun row hrow => Ty.cell?_build rfl hrow) fun row hrow => Value.type_cell hs ?_
        rw [hty]
        exact Folding.lt_count_of_position hcolumn hrow
      rw [hw]
      exact (congrArg (combined (.matrix s' columns rows)) hcolumns).trans
        (combined_matrix fun i => (v.cell i).convert s')

/-- An operand in the component type that an operator works in. -/
theorem withComponent_datum {v w : Value} (basic : v.ty.isBasic)
    (h : Folding.operand s v = .ok w) :
    M.withComponent ⟨v.datum, v.ty⟩ s = ⟨w.datum, w.ty⟩ := by
  unfold Folding.operand at h
  split at h
  · simp at h
  · split at h
    · rename_i w' hw
      obtain rfl := Except.ok.inj h
      rw [withComponent, convert_datum basic hw, Value.ty_of_convert hw]
    · simp at h

end Machine

end ShaderExpr
