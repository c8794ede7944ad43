import ShaderExpr.Proofs.Build.Sound

namespace ShaderExpr

open Typing

theorem Scalar.definition_result (x : Scalar) (t id : Id) :
    (x.definition t id).result? = some id ∧ (x.definition t id).resultType? = some t ∧
      (x.definition t id).op.isConstant := by
  cases x with
  | bool b => cases b <;> exact ⟨rfl, rfl, rfl⟩
  | float | double | int | uint => exact ⟨rfl, rfl, rfl⟩

namespace Builder

variable {xs : List Variable} {casts : Bool} {b b' b'' : Builder}

theorem front_subset_emitted (b : Builder) : b.front ⊆ b.emitted := List.subset_append_left _ _

namespace Includes

theorem refl (b : Builder) : b.Includes b :=
  ⟨fun _ _ h => h, fun _ h => h, ⟨[], by simp⟩⟩

theorem trans (h : b'.Includes b) (h' : b''.Includes b') : b''.Includes b := by
  obtain ⟨new, hnew⟩ := h.code
  obtain ⟨new', hnew'⟩ := h'.code
  exact ⟨fun ty t ht => h'.types ty t (h.types ty t ht), fun i hi => h'.front (h.front hi),
    ⟨new ++ new', by rw [hnew', hnew, List.append_assoc]⟩⟩

theorem emitted (h : b'.Includes b) : b.emitted ⊆ b'.emitted := by
  obtain ⟨new, hnew⟩ := h.code
  intro i hi
  rcases List.mem_append.mp hi with hi | hi
  · exact List.mem_append_left _ (h.front hi)
  · refine List.mem_append_right _ ?_
    rw [hnew]
    exact List.mem_append_left new hi

end Includes

namespace Grows

theorem refl (b : Builder) : b.Grows b :=
  ⟨.refl b, rfl, fun _ _ h => h, Nat.le_refl _, fun _ hi _ _ => .inl hi⟩

theorem trans (h : b.Grows b') (h' : b'.Grows b'') : b.Grows b'' := by
  refine ⟨h.includes.trans h'.includes, h'.options.trans h.options,
    fun k id hk => h'.declared k id (h.declared k id hk), Nat.le_trans h.nextId h'.nextId, ?_⟩
  intro i hi r hr
  rcases h'.fresh i hi r hr with hi | hle
  · exact h.fresh i hi r hr
  · exact .inr (Nat.le_trans h.nextId hle)

end Grows

theorem Declares.mono (h : b'.Includes b) {ty : Ty} {t : Id} (ht : b.Declares ty t) :
    b'.Declares ty t := by
  cases ty with
  | void | scalar => exact h.front ht
  | vector | matrix =>
    obtain ⟨c, hc, hdeclared⟩ := ht
    exact ⟨c, h.types _ _ hc, h.front hdeclared⟩
  | struct name members =>
    obtain ⟨ids, hids, hdeclared, hshort⟩ := ht
    exact ⟨ids, hids.imp fun m id hm => h.types _ _ hm, h.front hdeclared, hshort⟩

theorem HoldsScalar.mono (h : b'.Includes b) {s : ScalarType} {data : List UInt8} {id : Id}
    (hid : b.HoldsScalar s data id) : b'.HoldsScalar s data id := by
  obtain ⟨t, x, ht, hx, hdefined⟩ := hid
  exact ⟨t, x, h.types _ _ ht, hx, h.front hdefined⟩

theorem HoldsParts.mono (h : b'.Includes b) {ty : Ty} {id : Id} {parts : List Id}
    (hid : b.HoldsParts ty id parts) : b'.HoldsParts ty id parts := by
  obtain ⟨t, ht, hdefined⟩ := hid
  exact ⟨t, h.types _ _ ht, h.front hdefined⟩

theorem HoldsVector.mono (h : b'.Includes b) {s : ScalarType} {n : Dim} {data : List UInt8} {id : Id}
    (hid : b.HoldsVector s n data id) : b'.HoldsVector s n data id := by
  obtain ⟨parts, hparts, hdata⟩ := hid
  exact ⟨parts, hparts.mono h, hdata.imp fun _ _ hx => hx.mono h⟩

theorem HoldsMatrix.mono (h : b'.Includes b) {s : ScalarType} {columns rows : Dim}
    {data : List UInt8} {id : Id} (hid : b.HoldsMatrix s columns rows data id) :
    b'.HoldsMatrix s columns rows data id := by
  obtain ⟨parts, hparts, hdata⟩ := hid
  exact ⟨parts, hparts.mono h, hdata.imp fun _ _ hx => hx.mono h⟩

mutual
theorem Holds.mono (h : b'.Includes b) : ∀ {ty : Ty} {data : List UInt8} {id : Id},
    b.Holds ty data id → b'.Holds ty data id
  | .void, _, _, hid => hid
  | .scalar _, _, _, hid => HoldsScalar.mono h hid
  | .vector _ _, _, _, hid => HoldsVector.mono h hid
  | .matrix _ _ _, _, _, hid => HoldsMatrix.mono h hid
  | .struct _ _, _, _, ⟨parts, hparts, hmembers⟩ =>
    ⟨parts, hparts.mono h, HoldsMembers.mono h hmembers⟩
theorem HoldsMembers.mono (h : b'.Includes b) : ∀ {ms : List (String × Ty)} {data : List UInt8}
    {ids : List Id}, b.HoldsMembers ms data ids → b'.HoldsMembers ms data ids
  | [], _, _, hids => hids
  | (_, _) :: _, _, _, ⟨id, ids, hids, hfirst, hrest⟩ =>
    ⟨id, ids, hids, Holds.mono h hfirst, HoldsMembers.mono h hrest⟩
end

theorem StartsWith.mono (h : b'.Includes b) {x : Variable} {initial : List Id}
    (hx : b.StartsWith x initial) : b'.StartsWith x initial := by
  unfold StartsWith at hx ⊢
  split at hx
  · obtain ⟨value, hvalue, hholds⟩ := hx
    exact ⟨value, hvalue, hholds.mono h⟩
  · exact hx

theorem DeclaresVariable.mono (h : b'.Includes b) {x : Variable} {id : Id}
    (hx : b.DeclaresVariable x id) : b'.DeclaresVariable x id := by
  obtain ⟨t, pointee, initial, hpointee, hpointer, hvar, hinitial⟩ := hx
  exact ⟨t, pointee, initial, h.types _ _ hpointee, h.front hpointer, h.front hvar,
    hinitial.mono h⟩

theorem Typed.mono (h : b'.Includes b) {id : Id} {ty : Ty} (hid : b.Typed id ty) : b'.Typed id ty := by
  obtain ⟨t, ht, htype⟩ := hid
  exact ⟨t, h.types _ _ ht, htype.mono h.emitted⟩

/-- A constant is a value of its type, given in front of the code. -/
theorem Holds.constant {ty : Ty} {data : List UInt8} {id : Id} (h : b.Holds ty data id) :
    ∃ t, b.types.lookup ty = some t ∧ HasType b.front id t ∧ IsConstant b.front id := by
  have hparts {ty : Ty} {parts : List Id} (h : b.HoldsParts ty id parts) :
      ∃ t, b.types.lookup ty = some t ∧ HasType b.front id t ∧ IsConstant b.front id := by
    obtain ⟨t, ht, hdefined⟩ := h
    exact ⟨t, ht, ⟨_, hdefined, rfl, rfl⟩, ⟨_, hdefined, rfl, rfl⟩⟩
  cases ty with
  | void => exact h.elim
  | scalar s =>
    obtain ⟨t, x, ht, -, hdefined⟩ := h
    obtain ⟨hresult, htype, hconstant⟩ := x.definition_result t id
    exact ⟨t, ht, ⟨_, hdefined, hresult, htype⟩, ⟨_, hdefined, hresult, hconstant⟩⟩
  | vector | matrix | struct =>
    obtain ⟨parts, h, -⟩ := h
    exact hparts h

theorem Holds.typed {ty : Ty} {data : List UInt8} {id : Id} (h : b.Holds ty data id) :
    b.Typed id ty := by
  obtain ⟨t, ht, htype, -⟩ := h.constant
  exact ⟨t, ht, htype.mono b.front_subset_emitted⟩

end Builder

end ShaderExpr
