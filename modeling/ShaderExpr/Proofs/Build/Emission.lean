import ShaderExpr.Proofs.Build.Types
import ShaderExpr.Proofs.Collections

namespace ShaderExpr

open Typing

theorem Opcode.ne_typeMatrix {op : Opcode} (typed : op.resultPosition? = some 1) :
    op ≠ .typeMatrix := by
  rintro rfl
  simp [resultPosition?] at typed

/-- Types of the parts that values of a type are made of. -/
def Ty.partTypes : Ty → List Ty
  | .void | .scalar _ => []
  | .vector s n => List.replicate n.toNat (.scalar s)
  | .matrix s columns rows => List.replicate columns.toNat (.vector s rows)
  | .struct _ members => members.map (·.2)

/-- The type that indexes lead to. -/
def Ty.at? (ty : Ty) : List Nat → Option Ty
  | [] => some ty
  | i :: indexes => ty.partTypes[i]?.bind fun u => u.at? indexes

/-- Component type and number of components of scalars and vectors. -/
def Ty.lanes? : Ty → Option (ScalarType × Nat)
  | .scalar s => some (s, 1)
  | .vector s n => some (s, n.toNat)
  | _ => none

namespace Builder

variable {xs : List Variable} {casts : Bool} {b b' : Builder}

/-- An import in front of everything else. -/
theorem Grows.withImport {b₀ : Builder} (h : b₀.Grows b) {id : Id} (new : b.extendedSet = none)
    (hid : b₀.nextId.toNat ≤ id.toNat) : b₀.Grows { b with extendedSet := some id } := by
  have hfront : front { b with extendedSet := some id } =
      ⟨.extInstImport, id :: extendedSetName⟩ :: b.front := by
    simp [front, imports, new]
  refine ⟨h.includes.trans ⟨fun _ _ h => h, ?_, ⟨[], by simp⟩⟩, h.options, h.declared, h.nextId, ?_⟩
  · rw [hfront]
    exact List.subset_cons_self _ _
  · intro i hi r hr
    rw [emitted, hfront] at hi
    rcases List.mem_cons.mp hi with rfl | hi
    · exact .inr (Option.some.inj hr ▸ hid)
    · exact h.fresh i hi r hr

namespace Sound

/-- The parts of a composite type are declared. -/
theorem parts (hs : b.Sound xs casts) {ty : Ty} {t : Id} (ht : b.types.lookup ty = some t)
    (composite : ty.isScalar = false) : ∃ us, Parts b.front t us ∧
      List.Forall₂ (fun u id => b.types.lookup u = some id) ty.partTypes us := by
  have hreplicate {u : Ty} {c : Id} (hc : b.types.lookup u = some c) (n : Nat) :
      List.Forall₂ (fun u id => b.types.lookup u = some id) (List.replicate n u)
        (List.replicate n c) := by
    have h := List.forall₂_replicate (R := fun u id => b.types.lookup u = some id)
      (l := List.replicate n u) (b := c) fun v hv => List.eq_of_mem_replicate hv ▸ hc
    rwa [List.length_replicate] at h
  cases ty with
  | void | scalar => simp [Ty.isScalar] at composite
  | vector s n =>
    obtain ⟨c, hc, -, hdeclared⟩ := hs.vectorType ht
    have hparts := Parts.vector hdeclared
    rw [n.toNat_ofNat] at hparts
    exact ⟨_, hparts, hreplicate hc _⟩
  | matrix s columns rows =>
    obtain ⟨c, hc, hdeclared⟩ := hs.matrixType ht
    have hparts := Parts.matrix hdeclared
    rw [columns.toNat_ofNat] at hparts
    exact ⟨_, hparts, hreplicate hc _⟩
  | struct name members =>
    obtain ⟨ids, hids, hdeclared, -⟩ := hs.structType ht
    exact ⟨ids, .struct hdeclared, List.forall₂_map_left_iff.mpr hids⟩

/-- Indexes lead from a declared type to a declared type. -/
theorem path (hs : b.Sound xs casts) {ty u : Ty} {t : Id} (ht : b.types.lookup ty = some t)
    {indexes : List Nat} (hu : ty.at? indexes = some u) :
    ∃ c, b.types.lookup u = some c ∧ Path b.front t indexes c := by
  induction indexes generalizing ty t with
  | nil =>
    obtain rfl := Option.some.inj hu
    exact ⟨t, ht, .nil⟩
  | cons i indexes ih =>
    obtain ⟨v, hv, hu⟩ := Option.bind_eq_some_iff.mp hu
    have composite : ty.isScalar = false := by
      cases ty <;> first | rfl | simp [Ty.partTypes] at hv
    obtain ⟨us, hparts, hus⟩ := hs.parts ht composite
    obtain ⟨hi, hv⟩ := List.getElem?_eq_some_iff.mp hv
    obtain ⟨-, hget⟩ := List.forall₂_iff_get.mp hus
    have hi' : i < us.length := hus.length_eq ▸ hi
    have hlookup : b.types.lookup v = some us[i] := hv ▸ hget i hi hi'
    obtain ⟨c, hc, hpath⟩ := ih hlookup hu
    exact ⟨c, hc, .cons hparts (List.getElem?_eq_getElem hi') hpath⟩

/-- Scalars and vectors of a kind. -/
theorem lanes (hs : b.Sound xs casts) {ty : Ty} {t : Id} (ht : b.types.lookup ty = some t)
    {s : ScalarType} {n : Nat} (hty : ty.lanes? = some (s, n)) {k : Kind} (hk : k.admits s) :
    Lanes b.emitted k t n := by
  cases ty with
  | void | matrix | struct => simp [Ty.lanes?] at hty
  | scalar s' =>
    obtain ⟨rfl, rfl⟩ : s' = s ∧ 1 = n := by simpa [Ty.lanes?] using hty
    exact .scalar ((hs.isScalar ht hk).mono b.front_subset_emitted)
  | vector s' n' =>
    obtain ⟨rfl, rfl⟩ : s' = s ∧ n'.toNat = n := by simpa [Ty.lanes?] using hty
    obtain ⟨c, hc, -, hdeclared⟩ := hs.vectorType ht
    have hlanes := Lanes.vector (b.front_subset_emitted hdeclared)
      ((hs.isScalar hc hk).mono b.front_subset_emitted)
    rwa [n'.toNat_ofNat] at hlanes

/-- An import in front of everything else. -/
theorem withImport (hs : b.Sound xs casts) {id : Id} (hid : b.Unused id) (new : b.extendedSet = none) :
    Sound xs casts { b with extendedSet := some id } := by
  have hbefore : b.emitted = b.define ++ b.code := by
    simp [emitted, front, imports, new]
  have hbehind : emitted { b with extendedSet := some id } =
      ⟨.extInstImport, id :: extendedSetName⟩ :: (b.define ++ b.code) := by
    simp [emitted, front, imports]
  refine hs.includes ⟨fun _ _ h => h, fun i hi => ?_, ⟨[], by simp⟩⟩ ?_ ?_ ?_ rfl rfl rfl rfl
    (Nat.le_refl _) rfl rfl
  · have hdefine : i ∈ b.define := by simpa [front, imports, new] using hi
    exact List.mem_append_right _ hdefine
  · rw [hbehind]
    refine ⟨.frame rfl, by simp, ?_⟩
    have hfollows : Follows [] (b.define ++ b.code) := hbefore ▸ hs.typed
    refine hfollows.mono (by simp) fun i hi r hr j hj => ?_
    rw [List.mem_singleton.mp hj]
    intro heq
    have hr' : id = r := Option.some.inj heq
    subst hr'
    exact hid.unused i (hbefore ▸ hi) hr
  · rw [hbehind]
    intro i hi r hr
    rcases List.mem_cons.mp hi with rfl | hi
    · obtain rfl : id = r := Option.some.inj hr
      exact hid.reserved
    · exact hs.known i (hbefore ▸ hi) r hr
  · rw [hbehind]
    intro hcasts i hi
    rcases List.mem_cons.mp hi with rfl | hi
    · exact floatingColumns_of_op Opcode.noConfusion
    · have hcolumns := hs.floating hcasts i (hbefore ▸ hi)
      rw [hbefore] at hcolumns
      exact hcolumns.mono (List.subset_cons_self _ _)

end Sound

/-- Where a type is declared, values of it have its id as their type. -/
theorem Typed.hasType {id t : Id} {ty : Ty} (h : b.Typed id ty)
    (ht : b.types.lookup ty = some t) : HasType b.emitted id t := by
  obtain ⟨u, hu, htype⟩ := h
  rw [ht] at hu
  exact Option.some.inj hu ▸ htype

/-- Parts with the types that a composite type asks for. -/
theorem forall₂_hasType {known : List Instruction} {ids us : List Id} {types : List Ty}
    (hids : List.Forall₂ (fun id u => ∃ c, b.types.lookup u = some c ∧ HasType known id c) ids types)
    (hus : List.Forall₂ (fun u id => b.types.lookup u = some id) types us) :
    List.Forall₂ (HasType known) ids us := by
  induction hids generalizing us with
  | nil =>
    cases hus
    exact .nil
  | cons hid _ ih =>
    obtain ⟨c, hc, htype⟩ := hid
    cases hus with
    | cons hu hus =>
      rw [hc] at hu
      exact .cons (Option.some.inj hu ▸ htype) (ih hus)

end Builder

namespace Build

open Builder

variable {xs : List Variable} {casts : Bool} {b b' : Builder}

/-- An instruction with a result of a declared type behind the code. Its rule must hold for every id
    that the result can have. -/
theorem addCode_attains (hs : b.Sound xs casts) {op : Opcode} {t : Id} {operands : List UInt32}
    (typed : op.resultPosition? = some 1)
    (rule : ∀ id, Rule b.emitted ⟨op, t :: id :: operands⟩) :
    (do
      let id ← fresh
      add .code op (t :: id :: operands)
      return id : Build Id).Attains xs casts b fun id b' => HasType b'.emitted id t := by
  intro id b' hr
  obtain ⟨id', b₁, hfresh, hr⟩ := bind_eq_ok.mp hr
  obtain ⟨rfl, rfl, hmax⟩ := fresh_eq_ok hfresh
  obtain ⟨_, b₂, hadd, hr⟩ := bind_eq_ok.mp hr
  obtain ⟨rfl, -⟩ := add_eq_ok hadd
  obtain ⟨rfl, rfl⟩ := Prod.mk.inj (Except.ok.inj hr)
  have hle : b.nextId.toNat ≤ (b.nextId + 1).toNat := by
    rw [toNat_add_one hmax]
    omega
  have hresult : Instruction.result? ⟨op, t :: b.nextId :: operands⟩ = some b.nextId := by
    rw [Instruction.result?, typed]
    rfl
  have htype : Instruction.resultType? ⟨op, t :: b.nextId :: operands⟩ = some t := by
    rw [Instruction.resultType?, if_pos typed]
    rfl
  have hs₁ := (hs.withId hle).withCode (i := ⟨op, t :: b.nextId :: operands⟩)
    (fun r hr => by
      rw [hresult] at hr
      exact Option.some.inj hr ▸ hs.unused_nextId hmax)
    (rule b.nextId) (Opcode.ne_typeMatrix typed)
  refine ⟨((Grows.refl b).withId hle).withCode fun r hr => ?_, hs₁, ?_⟩
  · rw [hresult] at hr
    exact Nat.le_of_eq (congrArg UInt32.toNat (Option.some.inj hr))
  · exact ⟨_, mem_emitted_withCode.mpr (.inr rfl), hresult, htype⟩

/-- An instruction with a result in the code. Whether it is well typed is decided by the types of
    the language that its operands have, since each of these is declared once. -/
theorem emit_attains (hs : b.Sound xs casts) {op : Opcode} {ty : Ty} {operands : List UInt32}
    (hty : ty.isAllowed casts) (typed : op.resultPosition? = some 1)
    (rule : ∀ b' t id, b.Grows b' → b'.Sound xs casts → b'.types.lookup ty = some t →
      Rule b'.emitted ⟨op, t :: id :: operands⟩) :
    (emit op ty operands).Attains xs casts b fun id b' => b'.Typed id ty := by
  refine (typeId_attains hs ty (.inr hty)).bind fun t b₁ hgrows₁ hs₁ ht => ?_
  replace ht := ht.1
  exact (addCode_attains hs₁ typed fun id => rule b₁ t id hgrows₁ hs₁ ht).mono
    fun id b' hgrows _ hid => ⟨t, hgrows.includes.types _ _ ht, hid⟩

/-- A constant in front of the code. -/
theorem addConstant_attains (hs : b.Sound xs casts) {op : Opcode} {ty : Ty} {operands : List UInt32}
    (hty : ty.isAllowed casts) (typed : op.resultPosition? = some 1)
    (rule : ∀ b' t id, b.Grows b' → b'.Sound xs casts → b'.types.lookup ty = some t →
      Rule b'.front ⟨op, t :: id :: operands⟩) :
    (addResult .define op ty operands).Attains xs casts b fun id b' =>
      (∃ t, b'.types.lookup ty = some t ∧ ⟨op, t :: id :: operands⟩ ∈ b'.front) ∧
        SameCode b b' := by
  refine (typeId_attains hs ty (.inr hty)).bind fun t b₁ hgrows₁ hs₁ ht => ?_
  obtain ⟨ht, honly⟩ := ht
  intro id b' hr
  obtain ⟨id', b₂, hfresh, hr⟩ := bind_eq_ok.mp hr
  obtain ⟨rfl, rfl, hmax⟩ := fresh_eq_ok hfresh
  obtain ⟨_, b₃, hadd, hr⟩ := bind_eq_ok.mp hr
  obtain ⟨rfl, -⟩ := add_eq_ok hadd
  obtain ⟨rfl, rfl⟩ := Prod.mk.inj (Except.ok.inj hr)
  have hle : b₁.nextId.toNat ≤ (b₁.nextId + 1).toNat := by
    rw [toNat_add_one hmax]
    omega
  have hresult : Instruction.result? ⟨op, t :: b₁.nextId :: operands⟩ = some b₁.nextId := by
    rw [Instruction.result?, typed]
    rfl
  have hgrows := (Grows.refl b₁).withId hle
  have hs₂ := (hs₁.withId hle).withDefinition (hs₁.unused_nextId hmax) hresult
    (rule _ t b₁.nextId (hgrows₁.trans hgrows) (hs₁.withId hle) ht)
    fun _ => floatingColumns_of_op (Opcode.ne_typeMatrix typed)
  refine ⟨hgrows.withDefinition fun r hr => ?_, hs₂, ⟨t, ht, ?_⟩, honly.declared, honly.code⟩
  · rw [hresult] at hr
    exact Nat.le_of_eq (congrArg UInt32.toNat (Option.some.inj hr))
  · exact List.mem_append_right _ (List.mem_append_right _ (List.mem_singleton_self _))

/-- The set of extended instructions is imported once. -/
theorem extendedSetId_attains (hs : b.Sound xs casts) :
    extendedSetId.Attains xs casts b fun id b' => ⟨.extInstImport, id :: extendedSetName⟩ ∈ b'.front := by
  refine .get_bind ?_
  cases hset : b.extendedSet with
  | some id =>
    refine .pure hs (List.mem_append_left _ ?_)
    rw [imports, hset]
    exact List.mem_singleton_self _
  | none =>
    intro id b' hr
    obtain ⟨id', b₂, hfresh, hr⟩ := bind_eq_ok.mp hr
    obtain ⟨rfl, rfl, hmax⟩ := fresh_eq_ok hfresh
    obtain ⟨_, b₃, hmodify, hr⟩ := bind_eq_ok.mp hr
    obtain ⟨-, rfl⟩ := Prod.mk.inj (Except.ok.inj hmodify)
    obtain ⟨rfl, rfl⟩ := Prod.mk.inj (Except.ok.inj hr)
    have hle : b.nextId.toNat ≤ (b.nextId + 1).toNat := by
      rw [toNat_add_one hmax]
      omega
    have hs₁ := (hs.withId hle).withImport (hs.unused_nextId hmax) hset
    refine ⟨((Grows.refl b).withId hle).withImport hset (Nat.le_refl _), hs₁, List.mem_append_left _ ?_⟩
    exact List.mem_singleton_self _

end Build

end ShaderExpr
