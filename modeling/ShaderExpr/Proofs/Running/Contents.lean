import ShaderExpr.Proofs.Running.Construction

namespace ShaderExpr

namespace Ty

mutual
/-- How many components a type has all through members, columns and rows. So each part of a variable
    is a stretch of its components. -/
def cellCount : Ty → Nat
  | .void => 0
  | .scalar _ => 1
  | .vector _ n => n.toNat
  | .matrix _ columns rows => columns.toNat * rows.toNat
  | .struct _ members => cellCounts members
def cellCounts : List (String × Ty) → Nat
  | [] => 0
  | (_, t) :: rest => t.cellCount + cellCounts rest
end

/-- A type can have a datum: there is a value that has both. -/
def Holds (ty : Ty) (d : Datum) : Prop := ∃ v : Value, v.ty = ty ∧ v.datum = d

end Ty

theorem Value.holds (v : Value) : v.ty.Holds v.datum := ⟨v, rfl, rfl⟩

namespace Datum

theorem cellsOf_append : ∀ (ds es : List Datum), cellsOf (ds ++ es) = cellsOf ds ++ cellsOf es
  | [], _ => rfl
  | d :: ds, es => by rw [List.cons_append, cellsOf, cellsOf, cellsOf_append ds, List.append_assoc]

end Datum

namespace Ty

variable {ty t u w : Ty} {s : ScalarType} {d e new : Datum} {name : Option String}
  {members : List (String × Ty)} {parts : List Datum} {path path' : List Nat}
  {offset offset' : Nat}

theorem cellCount_eq_componentCount (basic : ty.isBasic) : ty.cellCount = ty.componentCount := by
  cases ty with
  | void | struct => simp [isBasic] at basic
  | scalar | vector | matrix => rfl

/-- A datum of a basic type is made of components that have its component type. -/
theorem holds_iff_build (hs : ty.component? = some s) :
    ty.Holds d ↔ ∃ f : Nat → Scalar, (∀ i < ty.componentCount, (f i).type = s) ∧ d = ty.build f := by
  constructor
  · rintro ⟨v, rfl, rfl⟩
    exact ⟨v.cell, fun i hi => (v.get?_eq_cell hs hi).2,
      Value.datum_eq_build (isBasic_of_component? hs)⟩
  · rintro ⟨f, hf, rfl⟩
    refine ⟨.ofComponents ty ((List.range ty.componentCount).map f), Value.ofComponents_ty _ _,
      Value.datum_ofComponents hs fun i hi => ⟨f i, ?_, Scalar.convert_of_type (hf i hi)⟩⟩
    rw [List.getElem?_map, List.getElem?_range hi, Option.map_some]

theorem memberData_holds : ∀ {members : List (String × Ty)} {data : List UInt8},
    data.length = membersSize members →
      List.Forall₂ (fun p m => m.2.Holds p) (memberData members data) members
  | [], _, _ => .nil
  | (_, t) :: rest, data, hlength => by
    have hlength : data.length = t.size + membersSize rest := hlength
    refine .cons ⟨⟨t, data.take t.size, ?_⟩, rfl, rfl⟩ (memberData_holds ?_)
    · rw [List.length_take, hlength, Nat.min_eq_left (Nat.le_add_right _ _)]
    · rw [List.length_drop, hlength, Nat.add_sub_cancel_left]

/-- A datum of a struct is made of data of its members. -/
theorem holds_struct : (struct name members).Holds d ↔
    ∃ parts, d = .composite parts ∧ List.Forall₂ (fun p m => m.2.Holds p) parts members := by
  constructor
  · rintro ⟨v, hty, rfl⟩
    refine ⟨memberData members v.data, ?_, memberData_holds ?_⟩
    · rw [Value.datum, hty, datum]
    · rw [v.size_eq, hty, size]
  · rintro ⟨parts, rfl, hparts⟩
    obtain ⟨vs, hvs, rfl⟩ : ∃ vs : List Value, List.Forall₂ (fun v m => v.ty = m.2) vs members ∧
        parts = vs.map (·.datum) := by
      induction hparts with
      | nil => exact ⟨[], .nil, rfl⟩
      | cons hp _ ih =>
        obtain ⟨v, hty, rfl⟩ := hp
        obtain ⟨vs, hvs, rfl⟩ := ih
        exact ⟨v :: vs, .cons hty hvs, rfl⟩
    exact ⟨⟨.struct name members, vs.flatMap (·.data), Value.length_flatMap_data hvs⟩, rfl,
      congrArg Datum.composite (Machine.memberData_flatMap hvs)⟩

theorem length_cells_of_isBasic (basic : ty.isBasic) (h : ty.Holds d) :
    d.cells.length = ty.cellCount := by
  obtain ⟨v, rfl, rfl⟩ := h
  rw [Machine.cells_datum basic, List.length_map, List.length_range,
    cellCount_eq_componentCount basic]

mutual
theorem length_cells : ∀ {ty : Ty} {d : Datum}, ty.Holds d → d.cells.length = ty.cellCount
  | .void, d, h => by
    obtain ⟨v, hty, rfl⟩ := h
    rw [Value.datum, hty]
    rfl
  | .scalar _, _, h | .vector .., _, h | .matrix .., _, h => length_cells_of_isBasic rfl h
  | .struct name members, d, h => by
    obtain ⟨parts, rfl, hparts⟩ := holds_struct.mp h
    exact length_cellsOf hparts
theorem length_cellsOf : ∀ {members : List (String × Ty)} {parts : List Datum},
    List.Forall₂ (fun p m => m.2.Holds p) parts members →
      (Datum.cellsOf parts).length = cellCounts members
  | [], _, .nil => rfl
  | (_, t) :: rest, p :: parts, .cons hp hparts => by
    rw [Datum.cellsOf, cellCounts, List.length_append, length_cells hp, length_cellsOf hparts]
end

theorem ext_of_isBasic (basic : ty.isBasic) (h : ty.Holds d) (h' : ty.Holds e)
    (same : d.cells = e.cells) : d = e := by
  obtain ⟨s, hs⟩ := component?_of_isBasic basic
  obtain ⟨f, -, rfl⟩ := (holds_iff_build hs).mp h
  obtain ⟨g, -, rfl⟩ := (holds_iff_build hs).mp h'
  refine build_congr fun i hi => Option.some.inj ?_
  rw [← cell?_build basic hi, ← cell?_build basic hi, Datum.cell?, same]
  rfl

mutual
/-- A datum of a type is determined by its components. -/
theorem Holds.ext : ∀ {ty : Ty} {d e : Datum}, ty.Holds d → ty.Holds e → d.cells = e.cells → d = e
  | .void, _, _, ⟨v, hv, hd⟩, ⟨w, hw, he⟩, _ => by
    rw [← hd, ← he, Value.datum, hv, Value.datum, hw]
    rfl
  | .scalar _, _, _, h, h', same | .vector .., _, _, h, h', same | .matrix .., _, _, h, h', same =>
    ext_of_isBasic rfl h h' same
  | .struct name members, d, e, h, h', same => by
    obtain ⟨parts, rfl, hparts⟩ := holds_struct.mp h
    obtain ⟨parts', rfl, hparts'⟩ := holds_struct.mp h'
    rw [membersExt hparts hparts' same]
theorem membersExt : ∀ {members : List (String × Ty)} {parts parts' : List Datum},
    List.Forall₂ (fun p m => m.2.Holds p) parts members →
    List.Forall₂ (fun p m => m.2.Holds p) parts' members →
      Datum.cellsOf parts = Datum.cellsOf parts' → parts = parts'
  | [], _, _, .nil, .nil, _ => rfl
  | (_, t) :: rest, p :: parts, p' :: parts', .cons hp hparts, .cons hp' hparts', same => by
    obtain ⟨hfirst, hrest⟩ :=
      List.append_inj same ((length_cells hp).trans (length_cells hp').symm)
    rw [Holds.ext hp hp' hfirst, membersExt hparts hparts' hrest]
end

/-- A path of members leads from a type to a part of it, behind some number of components. -/
inductive Within : Ty → List Nat → Nat → Ty → Prop
  | here (ty : Ty) : Within ty [] 0 ty
  | member {name : Option String} {members : List (String × Ty)} {index : Nat} {m : String × Ty}
    {path : List Nat} {offset : Nat} {u : Ty} (found : members[index]? = some m)
    (inside : Within m.2 path offset u) :
    Within (.struct name members) (index :: path) (cellCounts (members.take index) + offset) u

theorem Within.append (h : t.Within path offset u) (h' : u.Within path' offset' w) :
    t.Within (path ++ path') (offset + offset') w := by
  induction h with
  | here => simpa using h'
  | member found _ ih =>
    rw [Nat.add_assoc]
    exact .member found (ih h')

/-- A part stands between the components in front of it and those behind it, and can be replaced. -/
theorem Within.split (h : t.Within path offset u) (hd : t.Holds d) :
    ∃ before behind, before.length = offset ∧ u.Holds (d.follow path) ∧
      d.cells = before ++ (d.follow path).cells ++ behind ∧
      ∀ new, u.Holds new →
        t.Holds (d.replace path new) ∧ (d.replace path new).cells = before ++ new.cells ++ behind := by
  induction h generalizing d with
  | here ty => exact ⟨[], [], rfl, hd, by simp [Datum.follow], fun new hnew => ⟨hnew, by
      simp [Datum.replace]⟩⟩
  | @member name members index m path offset u found inside ih =>
    obtain ⟨parts, rfl, hparts⟩ := holds_struct.mp hd
    obtain ⟨hindex, rfl⟩ := List.getElem?_eq_some_iff.mp found
    have hindex' : index < parts.length := hparts.length_eq ▸ hindex
    have hpart : (Datum.composite parts).follow (index :: path) = parts[index].follow path := by
      rw [Datum.follow, List.foldl_cons, Datum.part, Datum.parts, List.getD_eq_getElem?_getD,
        List.getElem?_eq_getElem hindex', Option.getD_some, Datum.follow]
    have hholds : members[index].2.Holds parts[index] := hparts.get hindex' hindex
    obtain ⟨before, behind, hbefore, hfollow, hcells, hreplace⟩ := ih hholds
    have hcells' (p : Datum) : Datum.cellsOf (parts.take index ++ p :: parts.drop (index + 1)) =
        Datum.cellsOf (parts.take index) ++ p.cells ++ Datum.cellsOf (parts.drop (index + 1)) := by
      rw [Datum.cellsOf_append, Datum.cellsOf, List.append_assoc]
    have hfront := length_cellsOf (List.forall₂_take index hparts)
    refine ⟨Datum.cellsOf (parts.take index) ++ before,
      behind ++ Datum.cellsOf (parts.drop (index + 1)), ?_, ?_, ?_, fun new hnew => ?_⟩
    · rw [List.length_append, hfront, hbefore]
    · rwa [hpart]
    · have hall := hcells' parts[index]
      rw [← List.drop_eq_getElem_cons hindex', List.take_append_drop, hcells] at hall
      rw [Datum.cells, hall, hpart]
      simp
    · obtain ⟨hnewHolds, hnewCells⟩ := hreplace new hnew
      rw [Datum.replace, List.modify_eq_take_cons_drop hindex']
      refine ⟨holds_struct.mpr ⟨_, rfl, ?_⟩, ?_⟩
      · rw [← List.take_append_drop index members, List.drop_eq_getElem_cons hindex]
        exact List.rel_append (List.forall₂_take index hparts)
          (.cons hnewHolds (List.forall₂_drop (index + 1) hparts))
      · rw [Datum.cells, hcells', hnewCells]
        simp

end Ty

end ShaderExpr
