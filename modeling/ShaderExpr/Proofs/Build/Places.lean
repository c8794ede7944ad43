import ShaderExpr.Proofs.Build.Binary
import ShaderExpr.Proofs.Expr.Evaluation
import ShaderExpr.Proofs.Value.Bytes

namespace ShaderExpr

open Typing

namespace Ty

theorem at?_append {ty u : Ty} {path : List Nat} (h : ty.at? path = some u) (rest : List Nat) :
    ty.at? (path ++ rest) = u.at? rest := by
  induction path generalizing ty with
  | nil =>
    obtain rfl := Option.some.inj h
    rfl
  | cons i path ih =>
    obtain ⟨v, hv, hu⟩ := Option.bind_eq_some_iff.mp h
    change (ty.partTypes[i]?.bind fun u => u.at? (path ++ rest)) = _
    rw [hv]
    exact ih hu

/-- A member is where its index leads. -/
theorem at?_member {ty : Ty} {index : Nat} (found : index < ty.members.length) :
    ty.at? [index] = some (ty.memberType index) := by
  cases ty with
  | void | scalar | vector | matrix => simp [members] at found
  | struct name members =>
    have hmember : members[index]? = some members[index] := List.getElem?_eq_getElem found
    simp [at?, partTypes, memberType, Ty.members, hmember]

/-- Components can be selected from these types. -/
def Selectable (whole : Ty) : Prop := (∃ s, whole = .scalar s) ∨ ∃ s n, whole = .vector s n

/-- Components of a whole that can be selected together. -/
structure Selects (whole : Ty) (indexes : List Nat) : Prop where
  shape : whole.Selectable
  some : indexes ≠ []
  few : indexes.length ≤ 4
  inside : ∀ i ∈ indexes, i < max whole.length 1

theorem ofComponents?_cases {s : ScalarType} {count : Nat} (any : count ≠ 0) (few : count ≤ 4) :
    (count = 1 ∧ ofComponents? s count = Option.some (.scalar s)) ∨
      ∃ n : Dim, count = n.toNat ∧ ofComponents? s count = Option.some (.vector s n) := by
  obtain rfl | rfl | rfl | rfl : count = 1 ∨ count = 2 ∨ count = 3 ∨ count = 4 := by omega
  · exact .inl ⟨rfl, rfl⟩
  · exact .inr ⟨.two, rfl, rfl⟩
  · exact .inr ⟨.three, rfl, rfl⟩
  · exact .inr ⟨.four, rfl, rfl⟩

namespace Selects

variable {whole : Ty} {indexes chosen : List Nat}

/-- One selected component is a scalar, and several are a vector of the same component type. -/
theorem swizzleType_cases (h : whole.Selects indexes) : ∃ s, whole.component? = Option.some s ∧
    ((indexes.length = 1 ∧ Expr.swizzleType whole indexes.length = .scalar s) ∨
      ∃ n : Dim, indexes.length = n.toNat ∧
        Expr.swizzleType whole indexes.length = .vector s n) := by
  have hany : indexes.length ≠ 0 := by simpa using h.some
  obtain ⟨s, hs, htype, -⟩ := Expr.swizzleType_eq h.shape hany h.few
  refine ⟨s, hs, ?_⟩
  rcases ofComponents?_cases (s := s) hany h.few with ⟨hone, hs⟩ | ⟨n, hn, hs⟩
  · rw [htype] at hs
    exact .inl ⟨hone, Option.some.inj hs⟩
  · rw [htype] at hs
    exact .inr ⟨n, hn, Option.some.inj hs⟩

/-- Components chosen from selected ones are components of the whole. So a swizzle of a swizzle is
    one selection, and its type is that of the outer one. -/
theorem compose (h : whole.Selects indexes)
    (h' : (Expr.swizzleType whole indexes.length).Selects chosen) :
    ∃ composed, chosen.mapM (indexes[·]?) = Option.some composed ∧ whole.Selects composed ∧
      composed.length = chosen.length ∧ Expr.swizzleType whole composed.length =
        Expr.swizzleType (Expr.swizzleType whole indexes.length) chosen.length := by
  obtain ⟨s, hs, htype⟩ := h.swizzleType_cases
  have hlength : max (Expr.swizzleType whole indexes.length).length 1 = indexes.length := by
    rcases htype with ⟨hone, htype⟩ | ⟨n, hn, htype⟩
    · rw [htype, hone]
      rfl
    · have hbounds := n.toNat_bounds
      rw [htype, hn]
      exact Nat.max_eq_left (Nat.le_trans (Nat.le_succ 1) hbounds.1)
  obtain ⟨composed, hcomposed, hchosen⟩ := Option.mapM_total (P := fun _ i => i ∈ indexes)
    (f := fun i => indexes[i]?) (l := chosen) fun i hi => by
      have hlt : i < indexes.length := hlength ▸ h'.inside i hi
      exact ⟨indexes[i], List.getElem?_eq_getElem hlt, List.getElem_mem hlt⟩
  have hcount : composed.length = chosen.length := hchosen.length_eq.symm
  have hmem : ∀ i ∈ composed, i ∈ indexes := fun i hi => by
    obtain ⟨_, _, hindex⟩ := List.exists_of_forall₂ hchosen i hi
    exact hindex
  have hcomponent : (Expr.swizzleType whole indexes.length).component? = Option.some s := by
    rcases htype with ⟨-, htype⟩ | ⟨n, -, htype⟩ <;> rw [htype] <;> rfl
  refine ⟨composed, hcomposed, ⟨h.shape, ?_, hcount ▸ h'.few, fun i hi => h.inside i (hmem i hi)⟩,
    hcount, ?_⟩
  · intro hnil
    rw [hnil] at hcount
    exact h'.some (List.length_eq_zero_iff.mp hcount.symm)
  · rw [hcount, Expr.swizzleType, Expr.swizzleType.eq_def (Expr.swizzleType _ _), hs, hcomponent]

end Selects

end Ty

/-- Of a scalar, no more than one component is selected. -/
def Place.Once (p : Place) : Prop :=
  p.whole.isScalar → ∀ indexes, p.selected = some indexes → indexes.length = 1

theorem Place.once_of_whole (p : Place) (h : p.selected = none) : p.Once := by
  intro _ indexes hindexes
  simp [h] at hindexes

/-- A scalar has only one component to select, which is not selected twice. -/
theorem Ty.Selects.length_eq_one {ty : Ty} {indexes : List Nat} (h : ty.Selects indexes)
    (scalar : ty.isScalar) (distinct : indexes.eraseDups.length = indexes.length) :
    indexes.length = 1 := by
  have hzero : ∀ i ∈ indexes, i = 0 := by
    intro i hi
    have hlt := h.inside i hi
    rcases h.shape with ⟨s, rfl⟩ | ⟨s, n, rfl⟩
    · exact Nat.lt_one_iff.mp hlt
    · simp [isScalar] at scalar
  cases indexes with
  | nil => exact absurd rfl h.some
  | cons i rest =>
    obtain rfl := hzero i List.mem_cons_self
    have hrest : rest.filter (fun j => !j == 0) = [] := by
      refine List.filter_eq_nil_iff.mpr fun j hj => ?_
      simp [hzero j (List.mem_cons_of_mem _ hj)]
    rw [List.eraseDups_cons, hrest] at distinct
    exact distinct.symm

namespace Place

variable {p p' : Place} {ty : Ty} {indexes : List Nat}

/-- A place loads and stores values of type `ty`: it is a whole of this type, or selects components
    that make a value of it. -/
structure HasType (p : Place) (ty : Ty) : Prop where
  whole : p.selected = none → p.whole = ty
  part : ∀ indexes, p.selected = some indexes →
    p.whole.Selects indexes ∧ Expr.swizzleType p.whole indexes.length = ty

namespace HasType

theorem ty? (h : p.HasType ty) : p.ty? = .ok ty := by
  unfold Place.ty?
  cases hselected : p.selected with
  | none => exact congrArg _ (h.whole hselected)
  | some indexes =>
    obtain ⟨hselects, hty⟩ := h.part indexes hselected
    have hany : indexes.length ≠ 0 := by simpa using hselects.some
    obtain ⟨s, hs, htype, -⟩ := Expr.swizzleType_eq hselects.shape hany hselects.few
    dsimp only
    rw [hs]
    dsimp only
    rw [htype, hty]

/-- Of a place that has members, no components are selected. -/
theorem selected_eq_none (h : p.HasType ty) {index : Nat} (found : index < ty.members.length) :
    p.selected = none := by
  cases hselected : p.selected with
  | none => rfl
  | some indexes =>
    obtain ⟨hselects, rfl⟩ := h.part indexes hselected
    obtain ⟨s, -, ⟨-, htype⟩ | ⟨n, -, htype⟩⟩ := hselects.swizzleType_cases
    · simp [htype, Ty.members] at found
    · simp [htype, Ty.members] at found

/-- Components that a place has can be selected. -/
theorem select_total (h : p.HasType ty) (selects : ty.Selects indexes) :
    ∃ p', p.select indexes = .ok p' := by
  unfold Place.select
  cases hselected : p.selected with
  | none => exact ⟨_, rfl⟩
  | some current =>
    obtain ⟨hselects, rfl⟩ := h.part current hselected
    obtain ⟨composed, hcomposed, -⟩ := hselects.compose selects
    exact ⟨{ p with selected := some composed }, by simp only [hcomposed]⟩

theorem select (h : p.HasType ty) (selects : ty.Selects indexes)
    (hp : p.select indexes = .ok p') : p'.HasType (Expr.swizzleType ty indexes.length) := by
  unfold Place.select at hp
  cases hselected : p.selected with
  | none =>
    rw [hselected] at hp
    obtain rfl := Except.ok.inj hp
    refine ⟨by simp, fun chosen hchosen => ?_⟩
    obtain rfl := Option.some.inj hchosen
    rw [← h.whole hselected] at selects ⊢
    exact ⟨selects, rfl⟩
  | some current =>
    obtain ⟨hselects, rfl⟩ := h.part current hselected
    obtain ⟨composed, hcomposed, hwhole, -, htype⟩ := hselects.compose selects
    rw [hselected] at hp
    dsimp only at hp
    rw [hcomposed] at hp
    obtain rfl := Except.ok.inj hp
    refine ⟨by simp, fun chosen hchosen => ?_⟩
    obtain rfl := Option.some.inj hchosen
    exact ⟨hwhole, htype⟩

end HasType

end Place

namespace Builder

variable {xs : List Variable} {casts : Bool} {b b' : Builder} {p : Place} {ty : Ty}

/-- A place in a declared variable, which loads and stores values of type `ty`: its path leads from
    the type of the variable to the whole that it selects from. -/
structure IsPlace (b : Builder) (p : Place) (ty : Ty) : Prop extends p.HasType ty where
  path : ∃ root t u path, b.types.lookup root = some u ∧
    ⟨.typePointer, [t, p.storage.storageClass.number, u]⟩ ∈ b.front ∧
    HasType b.front p.variableId t ∧ List.Forall₂ (IsIndex b.front) p.indexes path ∧
    root.at? path = some p.whole
  proper : p.whole.isProper

/-- A struct has no more members than its declaration has room for. -/
theorem Sound.length_members (hs : b.Sound xs casts) {ty : Ty} {t : Id}
    (ht : b.types.lookup ty = some t) : ty.members.length < 65535 := by
  cases ty with
  | void | scalar | vector | matrix => exact Nat.zero_lt_succ _
  | struct name members =>
    obtain ⟨_, -, -, hshort⟩ := hs.structType ht
    exact hshort

theorem IsPlace.mono (h : b'.Includes b) (hp : b.IsPlace p ty) : b'.IsPlace p ty := by
  obtain ⟨root, t, u, path, hu, hpointer, hvariable, hindexes, hroot⟩ := hp.path
  refine ⟨hp.toHasType, ⟨root, t, u, path, h.types _ _ hu, h.front hpointer,
    hvariable.mono h.front, ?_, hroot⟩, hp.proper⟩
  exact hindexes.imp fun _ _ hindex => hindex.mono h.front

/-- A pointer to a value of type `whole`. -/
def PointsTo (b : Builder) (id : Id) (storage : StorageClass) (whole : Ty) : Prop :=
  ∃ t u, b.types.lookup whole = some u ∧ ⟨.typePointer, [t, storage.number, u]⟩ ∈ b.front ∧
    HasType b.emitted id t

theorem PointsTo.mono (h : b'.Includes b) {id : Id} {storage : StorageClass} {whole : Ty}
    (hid : b.PointsTo id storage whole) : b'.PointsTo id storage whole := by
  obtain ⟨t, u, hu, hpointer, htype⟩ := hid
  exact ⟨t, u, h.types _ _ hu, h.front hpointer, htype.mono h.emitted⟩

end Builder

namespace Build

open Builder

variable {xs : List Variable} {casts : Bool} {b b' : Builder} {p : Place} {ty : Ty}

/-- The whole of a variable is a place. -/
theorem placeOf_attains (hs : b.Sound xs casts) {x : Variable} (hx : x ∈ xs) :
    (placeOf x).Attains xs casts b fun p b' => b'.IsPlace p x.ty ∧ p.selected = none := by
  refine (variableId_attains hs hx).bind fun id b₁ _ hs₁ ⟨hdeclares, _⟩ => .pure hs₁ ?_
  obtain ⟨t, u, initial, hu, hpointer, hvar, -⟩ := hdeclares
  exact ⟨⟨⟨fun _ => rfl, by simp⟩, ⟨x.ty, t, u, [], hu, hpointer, ⟨_, hvar, rfl, rfl⟩, .nil, rfl⟩,
    (hs.valid x hx).proper⟩, rfl⟩

/-- An index that is small enough is a constant that says it. -/
theorem indexId_attains (hs : b.Sound xs casts) {index : Nat} (small : index < 4294967296) :
    (valueId (.ofScalar (.int (Int32.ofNat index)))).Attains xs casts b
      fun id b' => IsIndex b'.front id index := by
  have hty : (Value.ofScalar (.int (Int32.ofNat index))).ty = .scalar .int := rfl
  refine (valueId_attains hs _ (hty ▸ rfl)).mono fun id b' _ hs' ⟨hid, _⟩ => ?_
  obtain ⟨t, x, ht, hx, hdefined⟩ := hid
  rw [Value.data_ofScalar] at hx
  obtain rfl := Option.some.inj ((Scalar.ofBytes?_bytes _).symm.trans hx)
  exact ⟨t, UInt32.ofNat index, hs'.types _ _ ht, hdefined, UInt32.toNat_ofNat_of_lt' small⟩

theorem memberPlace_attains (hs : b.Sound xs casts) {base : Ty} {index : Nat}
    (found : index < base.members.length) (hp : b.IsPlace p base) :
    (memberPlace p index (base.memberType index)).Attains xs casts b
      fun p' b' => b'.IsPlace p' (base.memberType index) ∧ p'.selected = none := by
  unfold memberPlace
  split
  · exact .throw
  · rename_i hselected
    have hnone : p.selected = none := by simpa using hselected
    obtain rfl := hp.whole hnone
    obtain ⟨root, t, u, path, hu, hpointer, hvariable, hindexes, hroot⟩ := hp.path
    have hsmall : index < 4294967296 := by
      obtain ⟨c, hc, -⟩ := hs.path hu hroot
      have hfew := hs.length_members hc
      omega
    refine (indexId_attains hs hsmall).bind fun id b₁ hgrows₁ hs₁ hid => .pure hs₁ ?_
    refine ⟨⟨⟨fun _ => rfl, by simp [hnone]⟩, ⟨root, t, u, path ++ [index],
      hgrows₁.includes.types _ _ hu, hgrows₁.includes.front hpointer,
      hvariable.mono hgrows₁.includes.front, ?_, ?_⟩, Ty.memberType_proper hp.proper found⟩, hnone⟩
    · apply List.rel_append (hindexes.imp fun _ _ h => h.mono hgrows₁.includes.front)
      exact .cons hid .nil
    · rw [Ty.at?_append hroot]
      exact Ty.at?_member found

/-- A selection of components of a place is a place. It selects none twice if neither the place nor
    the indexes do. -/
theorem select_isPlace {base : Ty} {indexes : List Nat} {p' : Place} (hp : b.IsPlace p base)
    (selects : base.Selects indexes) (h : p.select indexes = .ok p') :
    b.IsPlace p' (Expr.swizzleType base indexes.length) ∧ (p.Once →
      indexes.eraseDups.length = indexes.length → p'.Once) := by
  have htype := hp.toHasType.select selects h
  unfold Place.select at h
  split at h
  · rename_i hnone
    obtain rfl := hp.whole hnone
    obtain rfl := Except.ok.inj h
    refine ⟨⟨htype, hp.path, hp.proper⟩, fun _ hdistinct hscalar chosen hchosen => ?_⟩
    obtain rfl := Option.some.inj hchosen
    exact selects.length_eq_one hscalar hdistinct
  · rename_i current hcurrent
    obtain ⟨hselects, rfl⟩ := hp.part current hcurrent
    obtain ⟨composed, hcomposed, -, hlength, -⟩ := hselects.compose selects
    rw [hcomposed] at h
    obtain rfl := Except.ok.inj h
    refine ⟨⟨htype, hp.path, hp.proper⟩, fun honce hdistinct hscalar chosen hchosen => ?_⟩
    · obtain rfl := Option.some.inj hchosen
      rw [hlength]
      refine selects.length_eq_one ?_ hdistinct
      obtain ⟨s, -, ⟨-, htype⟩ | ⟨n, hn, -⟩⟩ := hselects.swizzleType_cases
      · rw [htype]
        rfl
      · have hbounds := n.toNat_bounds
        have hone := honce hscalar current hcurrent
        omega

/-- Expressions that denote a place denote one of their type. -/
theorem place?_attains : ∀ {e : Expr} {b : Builder}, b.Sound xs casts → e.Checked xs →
    (place? e).Attains xs casts b fun p? b' =>
      ∀ p, p? = some p → b'.IsPlace p e.ty ∧ (e.isAssignable → p.Once)
  | .reference x, b, hs, .reference hx => by
    unfold place?
    rw [map_eq_pure_bind]
    refine (placeOf_attains hs hx).bind fun p b₁ _ hs₁ ⟨hp, hwhole⟩ => .pure hs₁ fun q hq => ?_
    exact Option.some.inj hq ▸ ⟨hp, fun _ => p.once_of_whole hwhole⟩
  | .member base index, b, hs, .member hbase found => by
    unfold place?
    refine (place?_attains hs hbase).bind fun p? b₁ _ hs₁ hp => ?_
    cases p? with
    | none => exact .pure hs₁ (by simp)
    | some p =>
      dsimp only
      rw [map_eq_pure_bind]
      refine (memberPlace_attains hs₁ found (hp p rfl).1).bind fun p' b₂ _ hs₂ ⟨hp', hwhole⟩ => ?_
      exact .pure hs₂ fun q hq => Option.some.inj hq ▸ ⟨hp', fun _ => p'.once_of_whole hwhole⟩
  | .swizzle base letters indexes, b, hs, .swizzle hbase shape hany few inside => by
    unfold place?
    refine (place?_attains hs hbase).bind fun p? b₁ _ hs₁ hp => ?_
    cases p? with
    | none => exact .pure hs₁ (by simp)
    | some p =>
      dsimp only
      rw [map_eq_pure_bind]
      obtain ⟨hp, honce⟩ := hp p rfl
      refine .except_bind fun p' hp' => .pure hs₁ fun q hq => ?_
      obtain rfl := Option.some.inj hq
      obtain ⟨hplace, honce'⟩ := select_isPlace hp ⟨shape, hany, few, inside⟩ hp'
      refine ⟨hplace, fun hassignable => ?_⟩
      obtain ⟨hdistinct, hbase⟩ := Bool.and_eq_true_iff.mp hassignable
      exact honce' (honce hbase) (of_decide_eq_true hdistinct)
  | .constant _, _, hs, _ | .binary .., _, hs, _ | .assign .., _, hs, _ | .negate _, _, hs, _
  | .construct .., _, hs, _ | .call .., _, hs, _ => .pure hs (by simp)

/-- The pointer to a place points to its whole. -/
theorem pointer_attains (hs : b.Sound xs casts) (hp : b.IsPlace p ty) :
    (pointer p).Attains xs casts b fun id b' => b'.PointsTo id p.storage.storageClass p.whole := by
  obtain ⟨root, t, u, path, hu, hpointer, hvariable, hindexes, hroot⟩ := hp.path
  unfold pointer
  split
  · rename_i hempty
    rw [List.isEmpty_iff.mp hempty] at hindexes
    cases hindexes
    obtain rfl := Option.some.inj hroot
    exact .pure hs ⟨t, u, hu, hpointer, hvariable.mono b.front_subset_emitted⟩
  · refine (pointerTypeId_attains hs (Ty.isAllowed_of_isProper casts hp.proper) p.storage).bind
      fun t' b₁ hgrows₁ hs₁ ⟨⟨v, hv, hpointer'⟩, _⟩ => ?_
    have hfront := hgrows₁.includes.front
    obtain ⟨c, hc, hinside⟩ := hs₁.path (hgrows₁.includes.types _ _ hu) hroot
    obtain rfl := Option.some.inj (hv.symm.trans hc)
    have hsub := b₁.front_subset_emitted
    refine (addCode_attains hs₁ rfl fun id => .accessChain (hsub (hfront hpointer))
      (hvariable.mono fun _ hi => hsub (hfront hi))
      (hindexes.imp fun _ _ h => h.mono fun _ hi => hsub (hfront hi)) (hinside.mono hsub)
      (hsub hpointer')).mono fun id b₂ hgrows₂ _ hid => ?_
    exact ⟨t', v, hgrows₂.includes.types _ _ hv, hgrows₂.includes.front hpointer', hid⟩

end Build

end ShaderExpr
