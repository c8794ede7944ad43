import ShaderExpr.Proofs.Build.Places

namespace ShaderExpr

open Typing

namespace Build

open Builder

variable {xs : List Variable} {casts : Bool} {b b' : Builder} {p : Place} {ty : Ty}

theorem toNat_small {whole : Ty} {indexes : List Nat} (h : whole.Selects indexes) :
    ∀ i ∈ indexes, i < 4294967296 := by
  intro i hi
  have hlt := h.inside i hi
  rcases h.shape with ⟨s, rfl⟩ | ⟨s, n, rfl⟩
  · change i < 1 at hlt
    omega
  · have hbounds := n.toNat_bounds
    have hle : max n.toNat 1 ≤ 4 := Nat.max_le.mpr ⟨hbounds.2, by omega⟩
    have hlt : i < 4 := Nat.lt_of_lt_of_le hlt hle
    omega

/-- Several components of a scalar repeat it, and several of a vector are picked from it. A single
    one is taken out instead. -/
theorem selectComponents_several {indexes : List Nat} (several : indexes.length ≠ 1) (id : Id)
    (whole ty : Ty) : selectComponents id whole ty indexes =
      if whole.isScalar then emit .compositeConstruct ty (List.replicate indexes.length id)
      else emit .vectorShuffle ty (id :: id :: indexes.map UInt32.ofNat) := by
  unfold selectComponents
  match indexes with
  | [] | _ :: _ :: _ => cases whole.isScalar <;> rfl
  | [_] => exact absurd rfl several

theorem replaceComponents_several {indexes : List Nat} (several : indexes.length ≠ 1) (whole : Ty)
    (current value : Id) : replaceComponents whole indexes current value =
      emit .vectorShuffle whole
        (current :: value :: (mergeIndexes whole.length indexes).map UInt32.ofNat) := by
  unfold replaceComponents
  match indexes with
  | [] | _ :: _ :: _ => rfl
  | [_] => exact absurd rfl several

/-- Selected components are a value of the type of the selection. -/
theorem selectComponents_attains (hs : b.Sound xs casts) {whole : Ty} {indexes : List Nat} {id : Id}
    (selects : whole.Selects indexes) (hid : b.Typed id whole) :
    (selectComponents id whole (Expr.swizzleType whole indexes.length) indexes).Attains xs casts b
      fun id b' => b'.Typed id (Expr.swizzleType whole indexes.length) := by
  obtain ⟨s, hcomponent, htype⟩ := selects.swizzleType_cases
  rcases selects.shape with ⟨s', rfl⟩ | ⟨s', n, rfl⟩
  · obtain rfl := Option.some.inj hcomponent
    rcases htype with ⟨hone, htype⟩ | ⟨m, hm, htype⟩
    · obtain ⟨i, rfl⟩ := List.length_eq_one_iff.mp hone
      exact .pure hs hid
    · have hbounds := m.toNat_bounds
      have hscalar : (Ty.scalar s').isScalar := rfl
      rw [htype, selectComponents_several (by omega), if_pos hscalar, hm]
      refine emit_construct hs rfl rfl (List.forall₂_replicate_iff.mpr ⟨List.length_replicate, ?_⟩)
      exact fun x hx => List.eq_of_mem_replicate hx ▸ hid
  · obtain rfl := Option.some.inj hcomponent
    have hsmall := toNat_small selects
    have hinside : ∀ i ∈ indexes, i < n.toNat := by
      intro i hi
      have hbounds := n.toNat_bounds
      have hlt : i < max n.toNat 1 := selects.inside i hi
      rwa [Nat.max_eq_left (by omega)] at hlt
    rcases htype with ⟨hone, htype⟩ | ⟨m, hm, htype⟩
    · obtain ⟨i, rfl⟩ := List.length_eq_one_iff.mp hone
      rw [htype]
      have hi := hinside i (List.mem_singleton_self i)
      have hat : (Ty.vector s' n).at? [i] = some (.scalar s') := by
        simp [Ty.at?, Ty.partTypes, hi]
      have hrun : selectComponents id (.vector s' n) (.scalar s') [i] =
          emit .compositeExtract (.scalar s') (id :: [i].map UInt32.ofNat) := rfl
      rw [hrun]
      exact emit_extract hs rfl hsmall hat hid
    · have hbounds := m.toNat_bounds
      have hvector : ¬(Ty.vector s' n).isScalar := Bool.false_ne_true
      rw [htype, selectComponents_several (by omega), if_neg hvector]
      exact emit_shuffle hs hm (fun i hi => Nat.lt_add_right _ (hinside i hi)) hid hid

/-- The whole behind a pointer. -/
theorem emit_load (hs : b.Sound xs casts) {whole : Ty} {storage : StorageClass} {pointer : Id}
    (allowed : whole.isAllowed casts) (hpointer : b.PointsTo pointer storage whole) :
    (emit .load whole [pointer]).Attains xs casts b fun id b' => b'.Typed id whole := by
  refine emit_attains hs allowed rfl fun b' t id hgrows hs' ht => ?_
  obtain ⟨pt, u, hu, hdeclared, htype⟩ := hpointer.mono hgrows.includes
  obtain rfl := Option.some.inj (ht.symm.trans hu)
  exact .load (b'.front_subset_emitted hdeclared) htype

/-- A load from a place gives a value of its type. Where components are selected, it takes them out
    of the whole. -/
theorem load_attains (hs : b.Sound xs casts) (hp : b.IsPlace p ty) :
    (load p).Attains xs casts b fun id b' => b'.Typed id ty := by
  refine (pointer_attains hs hp).bind fun pointer b₁ hgrows₁ hs₁ hpointer => ?_
  refine (emit_load hs₁ (Ty.isAllowed_of_isProper casts hp.proper) hpointer).bind
    fun loaded b₂ hgrows₂ hs₂ hloaded => ?_
  cases hselected : p.selected with
  | none => exact .pure hs₂ (hp.whole hselected ▸ hloaded)
  | some indexes =>
    obtain ⟨hselects, hty⟩ := hp.part indexes hselected
    refine .except_bind fun t ht => ?_
    obtain rfl := Except.ok.inj (hp.ty?.symm.trans ht)
    rw [← hty]
    exact selectComponents_attains hs₂ hselects hloaded

theorem length_mergeIndexes (length : Nat) (indexes : List Nat) :
    (mergeIndexes length indexes).length = length := by
  simp [mergeIndexes]

/-- Components of the stored value are counted behind those of the whole. -/
theorem mem_mergeIndexes {length : Nat} {indexes : List Nat} :
    ∀ i ∈ mergeIndexes length indexes, i < length + indexes.length := by
  intro i hi
  obtain ⟨c, hc, rfl⟩ := List.mem_map.mp hi
  have hc := List.mem_range.mp hc
  split
  · rename_i position hposition
    have hlt := (List.findIdx?_eq_some_iff_getElem.mp hposition).1
    omega
  · omega

/-- The whole with selected components replaced is of the type that it had. The value that replaces
    them has the type of the selection. -/
theorem replaceComponents_attains (hs : b.Sound xs casts) {s : ScalarType} {n : Dim}
    {indexes : List Nat} {current value : Id} (selects : (Ty.vector s n).Selects indexes)
    (hcurrent : b.Typed current (.vector s n))
    (hvalue : b.Typed value (Expr.swizzleType (.vector s n) indexes.length)) :
    (replaceComponents (.vector s n) indexes current value).Attains xs casts b
      fun id b' => b'.Typed id (.vector s n) := by
  obtain ⟨s', hcomponent, htype⟩ := selects.swizzleType_cases
  obtain rfl := Option.some.inj hcomponent
  rcases htype with ⟨hone, htype⟩ | ⟨m, hm, htype⟩
  · obtain ⟨i, rfl⟩ := List.length_eq_one_iff.mp hone
    rw [htype] at hvalue
    have hbounds := n.toNat_bounds
    have hlt : i < max n.toNat 1 := selects.inside i (List.mem_singleton_self i)
    rw [Nat.max_eq_left (by omega)] at hlt
    have hat : (Ty.vector s n).at? [i] = some (.scalar s) := by
      simp [Ty.at?, Ty.partTypes, hlt]
    have hrun : replaceComponents (.vector s n) [i] current value =
        emit .compositeInsert (.vector s n) (value :: current :: [i].map UInt32.ofNat) := rfl
    rw [hrun]
    exact emit_insert hs rfl (toNat_small selects) hat hvalue hcurrent
  · have hbounds := m.toNat_bounds
    rw [htype] at hvalue
    rw [replaceComponents_several (by omega)]
    refine emit_shuffle hs (length_mergeIndexes _ _) (fun i hi => ?_) hcurrent hvalue
    exact hm ▸ mem_mergeIndexes i hi

theorem storedWhole_attains (hs : b.Sound xs casts) {storage : StorageClass} {pointer value : Id}
    (hp : b.IsPlace p ty) (once : p.Once) (hpointer : b.PointsTo pointer storage p.whole)
    (hvalue : b.Typed value ty) :
    (storedWhole p pointer value).Attains xs casts b fun id b' => b'.Typed id p.whole := by
  unfold storedWhole
  cases hselected : p.selected with
  | none => exact .pure hs (hp.whole hselected ▸ hvalue)
  | some indexes =>
    obtain ⟨hselects, hty⟩ := hp.part indexes hselected
    dsimp only
    split
    · rename_i hscalar
      have hone := once hscalar indexes hselected
      obtain ⟨s, hcomponent, ⟨-, htype⟩ | ⟨m, hm, -⟩⟩ := hselects.swizzleType_cases
      · rw [← hty, htype] at hvalue
        rcases hselects.shape with ⟨s', hwhole⟩ | ⟨s', n, hwhole⟩
        · rw [hwhole] at hcomponent ⊢
          obtain rfl := Option.some.inj hcomponent
          exact .pure hs hvalue
        · simp [hwhole, Ty.isScalar] at hscalar
      · have hbounds := m.toNat_bounds
        omega
    · rename_i hscalar
      refine (emit_load hs (Ty.isAllowed_of_isProper casts hp.proper) hpointer).bind
        fun current b₁ hgrows₁ hs₁ hcurrent => ?_
      rcases hselects.shape with ⟨s, hwhole⟩ | ⟨s, n, hwhole⟩
      · simp [hwhole, Ty.isScalar] at hscalar
      · rw [hwhole] at hselects hcurrent hty ⊢
        exact replaceComponents_attains hs₁ hselects hcurrent
          (hty ▸ hvalue.mono hgrows₁.includes)

/-- A store behind the code. Pointer and value have the same type, since each type is declared once.
    -/
theorem addStore_attains (hs : b.Sound xs casts) {whole : Ty} {storage : StorageClass}
    {pointer value : Id} (hpointer : b.PointsTo pointer storage whole)
    (hvalue : b.Typed value whole) :
    (add .code .store [pointer, value]).Attains xs casts b fun _ _ => True := by
  obtain ⟨t, u, hu, hdeclared, htype⟩ := hpointer
  intro _ b' hr
  obtain ⟨rfl, -⟩ := add_eq_ok hr
  have hrule : Rule b.emitted ⟨.store, [pointer, value]⟩ :=
    .store (b.front_subset_emitted hdeclared) htype (hvalue.hasType hu)
  exact ⟨(Grows.refl b).withCode (by simp [Instruction.result?, Opcode.resultPosition?]),
    hs.withCode (by simp [Instruction.result?, Opcode.resultPosition?]) hrule Opcode.noConfusion,
    trivial⟩

/-- A place takes values of its type. Where components are selected, the whole is put back with them
    replaced, so none of them may be selected twice. -/
theorem store_attains (hs : b.Sound xs casts) {value : Id} (hp : b.IsPlace p ty) (once : p.Once)
    (hvalue : b.Typed value ty) : (store p value).Attains xs casts b fun _ _ => True := by
  refine (pointer_attains hs hp).bind fun pointer b₁ hgrows₁ hs₁ hpointer => ?_
  refine (storedWhole_attains hs₁ (hp.mono hgrows₁.includes) once hpointer
    (hvalue.mono hgrows₁.includes)).bind
    fun stored b₂ hgrows₂ hs₂ hstored => ?_
  exact addStore_attains hs₂ (hpointer.mono hgrows₂.includes) hstored

/-- What is stored has the type of the place. A plain assignment converts the value; one with an
    operator loads first, so both types must be proper for the operator to have code. -/
theorem assignedValue_attains (hs : b.Sound xs casts) {op : Option Operator} {ty target : Ty}
    {value : Operand} (hp : b.IsPlace p target)
    (typed : Reader.assignedType op target value.ty = .ok ty) (fits : ty.convertsTo target)
    (target_proper : target.isProper) (value_proper : value.ty.isProper)
    (hvalue : b.Typed value.id value.ty) :
    (assignedValue op ty target p value).Attains xs casts b fun id b' => b'.Typed id target := by
  have hallowed := Ty.isAllowed_of_isProper casts target_proper
  cases op with
  | none =>
    obtain rfl := Except.ok.inj typed
    exact convert_attains hs (Ty.alike_of_convertsTo fits) hallowed hvalue
  | some op =>
    refine (load_attains hs hp).bind fun current b₁ hgrows₁ hs₁ hcurrent => ?_
    refine (binary_attains hs₁ (l := ⟨current, target⟩) typed target_proper value_proper hcurrent
      (hvalue.mono hgrows₁.includes)).bind fun result b₂ _ hs₂ hresult => ?_
    exact convert_attains hs₂ (Ty.alike_of_convertsTo fits) hallowed hresult

theorem assign_attains (hs : b.Sound xs casts) {op : Option Operator} {ty target : Ty}
    {value : Operand} (hp : b.IsPlace p target) (once : p.Once)
    (typed : Reader.assignedType op target value.ty = .ok ty) (fits : ty.convertsTo target)
    (target_proper : target.isProper) (value_proper : value.ty.isProper)
    (hvalue : b.Typed value.id value.ty) :
    (assign op ty p value).Attains xs casts b fun id b' => b'.Typed id target := by
  refine .except_bind fun t ht => ?_
  obtain rfl := Except.ok.inj (hp.ty?.symm.trans ht)
  refine (assignedValue_attains hs hp typed fits target_proper value_proper hvalue).bind
    fun stored b₁ hgrows₁ hs₁ hstored => ?_
  refine (store_attains hs₁ (hp.mono hgrows₁.includes) once hstored).bind
    fun _ b₂ hgrows₂ hs₂ _ => ?_
  exact .pure hs₂ (hstored.mono hgrows₂.includes)

end Build

end ShaderExpr
