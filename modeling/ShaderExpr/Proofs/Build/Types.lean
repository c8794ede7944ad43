import ShaderExpr.Proofs.Build.Attains

namespace ShaderExpr

open Typing

theorem Ty.not_isVoid_of_mem {casts : Bool} {ms : List (String × Ty)}
    (h : membersAllowed casts ms) :
    ∀ m ∈ ms, m.2.isVoid = false := by
  induction ms with
  | nil => simp
  | cons m ms ih =>
    obtain ⟨hm, hms⟩ := Bool.and_eq_true_iff.mp h
    intro n hn
    rcases List.mem_cons.mp hn with rfl | hn
    · generalize n.2 = t at hm
      cases t <;> first | rfl | simp [isAllowed] at hm
    · exact ih hms n hn

namespace Dim

theorem toNat_bounds (n : Dim) : 2 ≤ n.toNat ∧ n.toNat ≤ 4 := by
  cases n <;> simp [toNat]

theorem toNat_ofNat (n : Dim) : (UInt32.ofNat n.toNat).toNat = n.toNat := by
  cases n <;> rfl

end Dim

namespace Typing

/-- Component types of a kind. -/
def Kind.admits : Kind → ScalarType → Bool
  | .boolean, s => s = .bool
  | .integer, s => s.isInteger
  | .unsigned, s => s = .uint
  | .floating, s => s.isFloating
  | .float width, s => (width = 32 ∧ s = .float) ∨ (width = 64 ∧ s = .double)

/-- A kind that a component type belongs to. -/
def Kind.of : ScalarType → Kind
  | .bool => .boolean
  | .int | .uint => .integer
  | .float | .double => .floating

theorem Kind.admits_of (s : ScalarType) : (Kind.of s).admits s := by
  cases s <;> rfl

theorem isScalar_of_declaration {known : List Instruction} {s : ScalarType} {t : Id}
    (h : s.declaration t ∈ known) {k : Kind} (hk : k.admits s) : IsScalar known k t := by
  cases k with
  | boolean =>
    obtain rfl : s = .bool := by simpa [Kind.admits] using hk
    exact h
  | integer => cases s <;> simp [Kind.admits, ScalarType.isInteger] at hk <;> exact ⟨_, h⟩
  | unsigned =>
    obtain rfl : s = .uint := by simpa [Kind.admits] using hk
    exact h
  | floating => cases s <;> simp [Kind.admits, ScalarType.isFloating] at hk <;> exact ⟨_, h⟩
  | float width =>
    obtain ⟨rfl, rfl⟩ | ⟨rfl, rfl⟩ : (width = 32 ∧ s = .float) ∨ (width = 64 ∧ s = .double) := by
      simpa [Kind.admits] using hk
    · exact h
    · exact h

end Typing

namespace Builder

variable {xs : List Variable} {casts : Bool} {b b' : Builder}

/-- In between, no code was added and no variable declared. -/
structure SameCode (b b' : Builder) : Prop where
  declared : b'.declared = b.declared
  code : b'.code = b.code

theorem SameCode.trans {b'' : Builder} (h : SameCode b b') (h' : SameCode b' b'') :
    SameCode b b'' :=
  ⟨h'.declared.trans h.declared, h'.code.trans h.code⟩

/-- In between, nothing but types no larger than `size` was declared. -/
structure OnlyTypes (size : Nat) (b b' : Builder) : Prop extends SameCode b b' where
  above : ∀ u : Ty, size < sizeOf u → b'.types.lookup u = b.types.lookup u

namespace OnlyTypes

variable {size size' : Nat}

theorem refl (size : Nat) (b : Builder) : OnlyTypes size b b := ⟨⟨rfl, rfl⟩, fun _ _ => rfl⟩

theorem mono (h : OnlyTypes size b b') (hle : size ≤ size') : OnlyTypes size' b b' :=
  ⟨h.toSameCode, fun u hu => h.above u (by omega)⟩

theorem trans {b'' : Builder} (h : OnlyTypes size b b') (h' : OnlyTypes size b' b'') :
    OnlyTypes size b b'' :=
  ⟨h.toSameCode.trans h'.toSameCode, fun u hu => (h'.above u hu).trans (h.above u hu)⟩

end OnlyTypes

namespace Sound

theorem vectorType (hs : b.Sound xs casts) {s : ScalarType} {n : Dim} {t : Id}
    (ht : b.types.lookup (.vector s n) = some t) :
    ∃ c, b.types.lookup (.scalar s) = some c ∧ s.declaration c ∈ b.front ∧
      ⟨.typeVector, [t, c, UInt32.ofNat n.toNat]⟩ ∈ b.front := by
  obtain ⟨c, hc, hdeclared⟩ := hs.types _ _ ht
  exact ⟨c, hc, hs.types _ _ hc, hdeclared⟩

theorem matrixType (hs : b.Sound xs casts) {s : ScalarType} {columns rows : Dim} {t : Id}
    (ht : b.types.lookup (.matrix s columns rows) = some t) :
    ∃ c, b.types.lookup (.vector s rows) = some c ∧
      ⟨.typeMatrix, [t, c, UInt32.ofNat columns.toNat]⟩ ∈ b.front :=
  hs.types _ _ ht

theorem structType (hs : b.Sound xs casts) {name : Option String} {members : List (String × Ty)} {t : Id}
    (ht : b.types.lookup (.struct name members) = some t) :
    ∃ ids, List.Forall₂ (fun m id => b.types.lookup m.2 = some id) members ids ∧
      ⟨.typeStruct, t :: ids⟩ ∈ b.front ∧ members.length < Instruction.maxWordCount :=
  hs.types _ _ ht

theorem isScalar (hs : b.Sound xs casts) {s : ScalarType} {t : Id}
    (ht : b.types.lookup (.scalar s) = some t) {k : Kind} (hk : k.admits s) :
    IsScalar b.front k t :=
  isScalar_of_declaration (hs.types _ _ ht) hk

/-- Types other than void are types of data. -/
theorem isDataType (hs : b.Sound xs casts) {ty : Ty} {t : Id} (ht : b.types.lookup ty = some t)
    (hvoid : ty.isVoid = false) : IsDataType b.front t := by
  cases ty with
  | void => simp [Ty.isVoid] at hvoid
  | scalar s =>
    have hdeclared : s.declaration t ∈ b.front := hs.types _ _ ht
    refine ⟨_, hdeclared, ?_⟩
    cases s <;> simp [ScalarType.declaration, Instruction.result?, Opcode.resultPosition?]
  | vector s n =>
    obtain ⟨c, -, -, hdeclared⟩ := hs.vectorType ht
    exact ⟨_, hdeclared, rfl, by simp⟩
  | matrix s columns rows =>
    obtain ⟨c, -, hdeclared⟩ := hs.matrixType ht
    exact ⟨_, hdeclared, rfl, by simp⟩
  | struct name members =>
    obtain ⟨ids, -, hdeclared, -⟩ := hs.structType ht
    exact ⟨_, hdeclared, rfl, by simp⟩

end Sound

end Builder

namespace Build

open Builder

variable {xs : List Variable} {casts : Bool} {b b' : Builder}

/-- A type that is declared has its id already, and else gets one from `definition`, which may
    declare the types it is made of on the way. -/
theorem internType_attains (hs : b.Sound xs casts) {ty : Ty} {definition : Build Id}
    (h : b.types.lookup ty = none → definition.Attains xs casts b fun id b' =>
      b'.types.lookup ty = some id ∧ OnlyTypes (sizeOf ty) b b') :
    (internType ty definition).Attains xs casts b fun id b' =>
      b'.types.lookup ty = some id ∧ OnlyTypes (sizeOf ty) b b' := by
  unfold internType
  refine .get_bind ?_
  cases hty : b.types.lookup ty with
  | some id => exact .pure hs ⟨hty, .refl _ b⟩
  | none => exact h hty

/-- A new type is declared behind what it is made of. `new` keeps each type to one declaration, and
    `holds` says that the instruction is one of this type, in any state that has it. -/
theorem defineType_attains (hs : b.Sound xs casts) {ty : Ty} {op : Opcode} {operands : List UInt32}
    (new : b.types.lookup ty = none) (declares : op.resultPosition? = some 0)
    (rule : ∀ id, Rule b.front ⟨op, id :: operands⟩)
    (columns : casts = false → ∀ id, FloatingColumns b.front ⟨op, id :: operands⟩)
    (holds : ∀ (id : Id) (b' : Builder), b'.Includes b → ⟨op, id :: operands⟩ ∈ b'.front →
      operands.length + 1 < Instruction.maxWordCount → b'.Declares ty id) :
    (defineType ty op operands).Attains xs casts b fun id b' =>
      b'.types.lookup ty = some id ∧ OnlyTypes (sizeOf ty) b b' := by
  intro id b' hr
  unfold defineType at hr
  obtain ⟨id', b₁, hfresh, hr⟩ := bind_eq_ok.mp hr
  obtain ⟨rfl, rfl, hmax⟩ := fresh_eq_ok hfresh
  obtain ⟨_, b₂, hadd, hr⟩ := bind_eq_ok.mp hr
  obtain ⟨rfl, hshort⟩ := add_eq_ok hadd
  obtain ⟨_, b₃, hmodify, hr⟩ := bind_eq_ok.mp hr
  obtain ⟨-, rfl⟩ := Prod.mk.inj (Except.ok.inj hmodify)
  obtain ⟨rfl, rfl⟩ := Prod.mk.inj (Except.ok.inj hr)
  have hle : b.nextId.toNat ≤ (b.nextId + 1).toNat := by
    rw [toNat_add_one hmax]
    omega
  have hresult : Instruction.result? ⟨op, b.nextId :: operands⟩ = some b.nextId := by
    rw [Instruction.result?, declares]
    rfl
  have hs₁ := (hs.withId hle).withDefinition (hs.unused_nextId hmax) hresult (rule _)
    fun hcasts => columns hcasts _
  have hgrows := ((Grows.refl b).withId hle).withDefinition (i := ⟨op, b.nextId :: operands⟩)
    fun r hr => by
      rw [hresult] at hr
      exact Nat.le_of_eq (congrArg UInt32.toNat (Option.some.inj hr))
  have hdeclares := holds b.nextId _ hgrows.includes
    (List.mem_append_right _ (List.mem_append_right _ (List.mem_singleton_self _))) hshort
  refine ⟨hgrows.withType new, hs₁.withType new hdeclares, List.lookup_cons_self, ⟨rfl, rfl⟩,
    fun u hu => ?_⟩
  have hne : (u == ty) = false := by
    refine beq_eq_false_iff_ne.mpr ?_
    rintro rfl
    exact Nat.lt_irrefl _ hu
  rw [List.lookup_cons, hne]
  rfl

theorem scalarTypeId_attains (hs : b.Sound xs casts) (s : ScalarType) :
    (scalarTypeId s).Attains xs casts b fun id b' =>
      b'.types.lookup (.scalar s) = some id ∧ OnlyTypes (sizeOf (Ty.scalar s)) b b' := by
  refine internType_attains hs fun new => ?_
  cases s with
  | bool =>
    exact defineType_attains hs new rfl (fun id => @Rule.typeScalar _ .bool id)
      (fun _ _ => floatingColumns_of_op Opcode.noConfusion) fun id b' _ hmem _ => hmem
  | float =>
    exact defineType_attains hs new rfl (fun id => @Rule.typeScalar _ .float id)
      (fun _ _ => floatingColumns_of_op Opcode.noConfusion) fun id b' _ hmem _ => hmem
  | double =>
    refine .modify_bind ((Grows.refl b).same rfl rfl rfl rfl rfl rfl) ?_
    have hs' : Sound xs casts { b with usesDouble := true } :=
      hs.same rfl rfl rfl rfl rfl rfl rfl rfl rfl
    exact (defineType_attains hs' new rfl (fun id => @Rule.typeScalar _ .double id)
      (fun _ _ => floatingColumns_of_op Opcode.noConfusion) fun id b' _ hmem _ => hmem).mono
      fun id b' _ _ h => ⟨h.1, ⟨h.2.declared, h.2.code⟩, h.2.above⟩
  | int =>
    exact defineType_attains hs new rfl (fun id => @Rule.typeScalar _ .int id)
      (fun _ _ => floatingColumns_of_op Opcode.noConfusion) fun id b' _ hmem _ => hmem
  | uint =>
    exact defineType_attains hs new rfl (fun id => @Rule.typeScalar _ .uint id)
      (fun _ _ => floatingColumns_of_op Opcode.noConfusion) fun id b' _ hmem _ => hmem

theorem vectorTypeId_attains (hs : b.Sound xs casts) (s : ScalarType) (n : Dim) :
    (vectorTypeId s n).Attains xs casts b fun id b' =>
      b'.types.lookup (.vector s n) = some id ∧ OnlyTypes (sizeOf (Ty.vector s n)) b b' := by
  refine internType_attains hs fun new => ?_
  refine (scalarTypeId_attains hs s).bind fun c b₁ _ hs₁ ⟨hc, honly⟩ => ?_
  have hsize : sizeOf (Ty.scalar s) < sizeOf (Ty.vector s n) := by
    simp only [Ty.scalar.sizeOf_spec, Ty.vector.sizeOf_spec]
    cases n <;> simp
  have hn := n.toNat_bounds
  refine (defineType_attains hs₁ ((honly.above _ hsize).trans new) rfl (fun id => ?_)
    (fun _ _ => floatingColumns_of_op Opcode.noConfusion)
    fun id b' hincludes hmem _ => ⟨c, hincludes.types _ _ hc, hmem⟩).mono
      fun id b' _ _ h => ⟨h.1, (honly.mono (Nat.le_of_lt hsize)).trans h.2⟩
  refine .typeVector (hs₁.isScalar hc (Kind.admits_of s)) ?_ ?_
  · rw [n.toNat_ofNat]
    exact hn.1
  · rw [n.toNat_ofNat]
    exact hn.2

theorem matrixTypeId_attains (hs : b.Sound xs casts) {s : ScalarType} (allowed : casts || s.isFloating)
    (columns rows : Dim) :
    (matrixTypeId s columns rows).Attains xs casts b fun id b' =>
      b'.types.lookup (.matrix s columns rows) = some id ∧
        OnlyTypes (sizeOf (Ty.matrix s columns rows)) b b' := by
  refine internType_attains hs fun new => ?_
  refine (vectorTypeId_attains hs s rows).bind fun c b₁ _ hs₁ ⟨hc, honly⟩ => ?_
  have hsize : sizeOf (Ty.vector s rows) < sizeOf (Ty.matrix s columns rows) := by
    simp only [Ty.vector.sizeOf_spec, Ty.matrix.sizeOf_spec]
    cases columns <;> simp
  have hn := columns.toNat_bounds
  obtain ⟨u, hu, -, hvector⟩ := hs₁.vectorType hc
  refine (defineType_attains hs₁ ((honly.above _ hsize).trans new) rfl (fun id => ?_)
    (fun hcasts id => ?_)
    fun id b' hincludes hmem _ => ⟨c, hincludes.types _ _ hc, hmem⟩).mono
      fun id b' _ _ h => ⟨h.1, (honly.mono (Nat.le_of_lt hsize)).trans h.2⟩
  · refine .typeMatrix hvector ?_ ?_
    · rw [columns.toNat_ofNat]
      exact hn.1
    · rw [columns.toNat_ofNat]
      exact hn.2
  · rintro t c' n hi
    simp only [Instruction.mk.injEq, List.cons.injEq, true_and] at hi
    obtain ⟨-, rfl, -⟩ := hi
    have hfloating : s.isFloating := by simpa [hcasts] using allowed
    exact ⟨u, _, hvector, hs₁.isScalar (k := .floating) hu hfloating⟩

/-- Names for debuggers change nothing that matters. -/
theorem nameId_attains (hs : b.Sound xs casts) (id : Id) (name : String) :
    (nameId id name).Attains xs casts b fun _ b' => ∃ debug, b' = b.withDebug debug := by
  refine .get_bind ?_
  split
  · intro u b' hr
    obtain ⟨rfl, -⟩ := add_eq_ok hr
    exact ⟨(Grows.refl b).same rfl rfl rfl rfl rfl rfl, hs.same rfl rfl rfl rfl rfl rfl rfl rfl rfl,
      _, rfl⟩
  · exact .pure hs ⟨b.debug, rfl⟩

theorem nameMembers_attains (hs : b.Sound xs casts) (id : Id) (members : List (String × Ty)) :
    (nameMembers id members).Attains xs casts b fun _ b' => ∃ debug, b' = b.withDebug debug := by
  refine .get_bind ?_
  split
  · rename_i hnames
    clear hnames
    generalize members.zipIdx = entries
    induction entries generalizing b with
    | nil => exact .pure hs ⟨b.debug, rfl⟩
    | cons entry entries ih =>
      refine Attains.bind (P := fun _ b' => ∃ debug, b' = b.withDebug debug) ?_ ?_
      · intro u b' hr
        obtain ⟨rfl, -⟩ := add_eq_ok hr
        exact ⟨(Grows.refl b).same rfl rfl rfl rfl rfl rfl,
          hs.same rfl rfl rfl rfl rfl rfl rfl rfl rfl, _, rfl⟩
      · rintro _ _ _ hs₁ ⟨debug, rfl⟩
        exact (ih hs₁).mono fun _ b' _ _ ⟨debug', hb'⟩ => ⟨debug', hb'⟩
  · exact .pure hs ⟨b.debug, rfl⟩

mutual
/-- A type is declared once, behind the types that it is made of. -/
theorem typeId_attains : ∀ {b : Builder}, b.Sound xs casts → ∀ ty : Ty, ty.isVoid ∨ ty.isAllowed casts →
    (typeId ty).Attains xs casts b fun id b' =>
      b'.types.lookup ty = some id ∧ OnlyTypes (sizeOf ty) b b'
  | _, hs, .void, _ =>
    internType_attains hs fun new => defineType_attains hs new rfl (fun _ => .typeVoid)
      (fun _ _ => floatingColumns_of_op Opcode.noConfusion)
      fun _ _ _ hmem _ => hmem
  | _, hs, .scalar s, _ => scalarTypeId_attains hs s
  | _, hs, .vector s n, _ => vectorTypeId_attains hs s n
  | _, hs, .matrix s columns rows, hallowed => by
    rcases hallowed with h | h
    · simp [Ty.isVoid] at h
    · exact matrixTypeId_attains hs h columns rows
  | b, hs, .struct name members, hallowed => by
    have hmembers : Ty.membersAllowed casts members := by
      rcases hallowed with h | h
      · simp [Ty.isVoid] at h
      · exact h
    have hsize : sizeOf members < sizeOf (Ty.struct name members) := by
      simp only [Ty.struct.sizeOf_spec]
      omega
    refine internType_attains hs fun new => ?_
    refine (memberTypeIds_attains hs members hmembers).bind fun ids b₁ _ hs₁ ⟨hids, honly⟩ => ?_
    refine (defineType_attains hs₁ ((honly.above _ hsize).trans new) rfl
      (fun id => ?_) (fun _ _ => floatingColumns_of_op Opcode.noConfusion)
      fun id b' hincludes hmem hshort => ⟨ids, hids.imp fun m id hm => hincludes.types _ _ hm,
        hmem, ?_⟩).bind fun id b₂ _ hs₂ ⟨hid, honly'⟩ => ?_
    · refine .typeStruct fun t ht => ?_
      obtain ⟨m, hm, hmt⟩ := List.exists_of_forall₂ hids t ht
      exact hs₁.isDataType hmt (Ty.not_isVoid_of_mem hmembers m hm)
    · rw [hids.length_eq]
      omega
    · have honly₂ := (honly.mono (Nat.le_of_lt hsize)).trans honly'
      have hnamed (debug : List Instruction) (hs₃ : (b₂.withDebug debug).Sound xs casts) :
          (nameMembers id members >>= fun _ => pure id : Build Id).Attains xs casts (b₂.withDebug debug)
            fun id b' => b'.types.lookup (.struct name members) = some id ∧
              OnlyTypes (sizeOf (Ty.struct name members)) b b' := by
        refine (nameMembers_attains hs₃ id members).bind ?_
        rintro _ _ _ hs₄ ⟨debug', rfl⟩
        exact .pure hs₄ ⟨hid, ⟨honly₂.declared, honly₂.code⟩, honly₂.above⟩
      cases name with
      | none => exact hnamed b₂.debug hs₂
      | some name =>
        refine (nameId_attains hs₂ id name).bind ?_
        rintro _ _ _ hs₃ ⟨debug, rfl⟩
        exact hnamed debug hs₃
theorem memberTypeIds_attains : ∀ {b : Builder}, b.Sound xs casts → ∀ members : List (String × Ty),
    Ty.membersAllowed casts members → (memberTypeIds members).Attains xs casts b fun ids b' =>
      List.Forall₂ (fun m id => b'.types.lookup m.2 = some id) members ids ∧
        OnlyTypes (sizeOf members) b b'
  | b, hs, [], _ => .pure hs ⟨.nil, .refl _ b⟩
  | b, hs, (name, t) :: rest, hallowed => by
    obtain ⟨ht, hrest⟩ := Bool.and_eq_true_iff.mp hallowed
    have hsize : sizeOf t ≤ sizeOf ((name, t) :: rest) ∧
        sizeOf rest ≤ sizeOf ((name, t) :: rest) := by
      simp only [List.cons.sizeOf_spec, Prod.mk.sizeOf_spec]
      omega
    refine (typeId_attains hs t (.inr ht)).bind fun id b₁ _ hs₁ ⟨hid, honly⟩ => ?_
    refine (memberTypeIds_attains hs₁ rest hrest).bind fun ids b₂ hgrows hs₂ ⟨hids, honly'⟩ => ?_
    exact .pure hs₂ ⟨.cons (hgrows.includes.types _ _ hid) hids,
      (honly.mono hsize.1).trans (honly'.mono hsize.2)⟩
end

/-- A pointer type is declared behind the type it points to, once for each storage class. -/
theorem pointerTypeId_attains (hs : b.Sound xs casts) {ty : Ty} (hty : ty.isAllowed casts)
    (storage : Storage) : (pointerTypeId ty storage).Attains xs casts b fun id b' =>
      (∃ pointee, b'.types.lookup ty = some pointee ∧
        ⟨.typePointer, [id, storage.storageClass.number, pointee]⟩ ∈ b'.front) ∧
      SameCode b b' := by
  refine .get_bind ?_
  cases hknown : b.pointerTypes.lookup (ty, storage.storageClass) with
  | some id => exact .pure hs ⟨hs.pointers _ _ _ hknown, rfl, rfl⟩
  | none =>
    refine (typeId_attains hs ty (.inr hty)).bind fun pointee b₁ _ hs₁ ⟨hpointee, honly⟩ => ?_
    intro id b' hr
    obtain ⟨id', b₂, hfresh, hr⟩ := bind_eq_ok.mp hr
    obtain ⟨rfl, rfl, hmax⟩ := fresh_eq_ok hfresh
    obtain ⟨_, b₃, hadd, hr⟩ := bind_eq_ok.mp hr
    obtain ⟨rfl, -⟩ := add_eq_ok hadd
    obtain ⟨_, b₄, hmodify, hr⟩ := bind_eq_ok.mp hr
    obtain ⟨-, rfl⟩ := Prod.mk.inj (Except.ok.inj hmodify)
    obtain ⟨rfl, rfl⟩ := Prod.mk.inj (Except.ok.inj hr)
    have hle : b₁.nextId.toNat ≤ (b₁.nextId + 1).toNat := by
      rw [toNat_add_one hmax]
      omega
    have hvoid : ty.isVoid = false := by
      cases ty <;> first | rfl | simp [Ty.isAllowed] at hty
    have hs₂ := (hs₁.withId hle).withDefinition
      (i := ⟨.typePointer, [b₁.nextId, storage.storageClass.number, pointee]⟩)
      (hs₁.unused_nextId hmax) rfl (.typePointer (hs₁.isDataType hpointee hvoid))
      fun _ => floatingColumns_of_op Opcode.noConfusion
    have hgrows := ((Grows.refl b₁).withId hle).withDefinition
      (i := ⟨.typePointer, [b₁.nextId, storage.storageClass.number, pointee]⟩) fun r hr =>
        Nat.le_of_eq (congrArg UInt32.toNat (Option.some.inj hr))
    have hmem : ⟨.typePointer, [b₁.nextId, storage.storageClass.number, pointee]⟩ ∈
        (({ b₁ with nextId := b₁.nextId + 1 } : Builder).withDefinition
          ⟨.typePointer, [b₁.nextId, storage.storageClass.number, pointee]⟩).front :=
      List.mem_append_right _ (List.mem_append_right _ (List.mem_singleton_self _))
    exact ⟨hgrows.same rfl rfl rfl rfl rfl rfl, hs₂.withPointer hpointee hmem,
      ⟨pointee, hpointee, hmem⟩, honly.declared, honly.code⟩

end Build

end ShaderExpr
