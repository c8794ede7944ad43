import ShaderExpr.Proofs.Interning.Steps

namespace ShaderExpr

open Relation

namespace Builder

/-- Only types up to a size may have been defined. -/
def TypesUpTo (n : Nat) (b b' : Builder) : Prop :=
  ∀ u : Ty, n < sizeOf u → b'.types.lookup u = b.types.lookup u

/-- Only constants of types up to a size may have been defined. -/
def ValuesUpTo (n : Nat) (b b' : Builder) : Prop :=
  ∀ (u : Ty) (data : List UInt8), n < sizeOf u →
    b'.values.lookup (u, data) = b.values.lookup (u, data)

variable {n k : Nat} {b b' b'' : Builder}

theorem TypesUpTo.trans (h : TypesUpTo n b b') (h' : TypesUpTo n b' b'') : TypesUpTo n b b'' :=
  fun u hu => (h' u hu).trans (h u hu)

theorem TypesUpTo.mono (h : TypesUpTo n b b') (hle : n ≤ k) : TypesUpTo k b b' :=
  fun u hu => h u (Nat.lt_of_le_of_lt hle hu)

theorem ValuesUpTo.trans (h : ValuesUpTo n b b') (h' : ValuesUpTo n b' b'') :
    ValuesUpTo n b b'' :=
  fun u data hu => (h' u data hu).trans (h u data hu)

theorem ValuesUpTo.mono (h : ValuesUpTo n b b') (hle : n ≤ k) : ValuesUpTo k b b' :=
  fun u data hu => h u data (Nat.lt_of_le_of_lt hle hu)

theorem TypesUpTo.withNewType (b : Builder) (ty : Ty) (op : Opcode) (operands : List UInt32) :
    TypesUpTo (sizeOf ty) b (b.withNewType ty op operands) := by
  intro u hu
  have hne : u ≠ ty := by
    rintro rfl
    exact Nat.lt_irrefl _ hu
  exact List.lookup_cons_eq.trans (if_neg hne)

theorem ValuesUpTo.withNewValue (b : Builder) (ty : Ty) (data : List UInt8) (op : Opcode)
    (type : Id) (operands : List UInt32) :
    ValuesUpTo (sizeOf ty) b (b.withNewValue ty data op type operands) := by
  intro u data' hu
  have hne : (u, data') ≠ (ty, data) := by
    rintro heq
    obtain ⟨rfl, -⟩ := Prod.mk.inj heq
    exact Nat.lt_irrefl _ hu
  exact List.lookup_cons_eq.trans (if_neg hne)

/-- Types are defined apart from all else. -/
structure SameTables (b b' : Builder) : Prop where
  pointers : b'.pointerTypes = b.pointerTypes
  values : b'.values = b.values
  declared : b'.declared = b.declared
  extendedSet : b'.extendedSet = b.extendedSet

theorem TypeStep.sameTables (h : TypeStep b b') : b.SameTables b' := by
  cases h <;> exact ⟨rfl, rfl, rfl, rfl⟩

theorem sameTables_of_steps (h : ReflTransGen TypeStep b b') : b.SameTables b' := by
  induction h with
  | refl => exact ⟨rfl, rfl, rfl, rfl⟩
  | tail _ hstep ih =>
    have hstep := hstep.sameTables
    exact ⟨hstep.pointers.trans ih.pointers, hstep.values.trans ih.values,
      hstep.declared.trans ih.declared, hstep.extendedSet.trans ih.extendedSet⟩

theorem keeps_of_types (h : ReflTransGen TypeStep b b') : b.Keeps b' :=
  .of_steps (fun _ _ => TypeStep.keeps) h

theorem keeps_of_definitions (h : ReflTransGen DefinitionStep b b') : b.Keeps b' :=
  .of_steps (fun _ _ => DefinitionStep.keeps) h

end Builder

namespace Build

open Builder

variable {b b' : Builder}

theorem add_debug_takes {op : Opcode} {operands : List UInt32} (named : op.isName) :
    (add .debug op operands).Takes TypeStep b fun _ b' => b'.types = b.types := by
  intro _ b' hr
  obtain ⟨rfl, hshort⟩ := add_eq_ok hr
  exact ⟨.single (.name named hshort), rfl⟩

theorem nameId_takes (id : Id) (name : String) :
    (nameId id name).Takes TypeStep b fun _ b' => b'.types = b.types :=
  .get_bind (.ite (fun _ => add_debug_takes rfl) fun _ => .pure rfl)

theorem nameMembers_takes (id : Id) (members : List (String × Ty)) :
    (nameMembers id members).Takes TypeStep b fun _ b' => b'.types = b.types := by
  refine .get_bind (.ite (fun hnames => ?_) fun _ => .pure rfl)
  clear hnames
  generalize members.zipIdx = entries
  induction entries generalizing b with
  | nil => exact .pure rfl
  | cons entry entries ih =>
    exact (add_debug_takes rfl).bind fun _ b₁ _ hsame => ih.mono fun _ _ _ h => h.trans hsame

theorem internType_takes {ty : Ty} {definition : Build Id}
    (h : b.types.lookup ty = none → definition.Takes TypeStep b fun id b' =>
      b'.types.lookup ty = some id ∧ TypesUpTo (sizeOf ty) b b') :
    (internType ty definition).Takes TypeStep b fun id b' =>
      b'.types.lookup ty = some id ∧ TypesUpTo (sizeOf ty) b b' := by
  refine .get_bind ?_
  cases hty : b.types.lookup ty with
  | some id => exact .pure ⟨hty, fun _ _ => rfl⟩
  | none => exact h hty

theorem defineType_eq_ok {ty : Ty} {op : Opcode} {operands : List UInt32} {id : Id}
    (h : defineType ty op operands b = .ok (id, b')) :
    id = b.nextId ∧ b.nextId ≠ 0xffffffff ∧ operands.length + 1 < Instruction.maxWordCount ∧
      b' = { b with
        nextId := b.nextId + 1
        define := b.define ++ [⟨op, b.nextId :: operands⟩]
        types := (ty, b.nextId) :: b.types } := by
  unfold defineType at h
  obtain ⟨id', b₁, hfresh, h⟩ := bind_eq_ok.mp h
  obtain ⟨rfl, rfl, hmax⟩ := fresh_eq_ok hfresh
  obtain ⟨_, b₂, hadd, h⟩ := bind_eq_ok.mp h
  obtain ⟨rfl, hshort⟩ := add_eq_ok hadd
  obtain ⟨_, b₃, hmodify, h⟩ := bind_eq_ok.mp h
  obtain ⟨-, rfl⟩ := Prod.mk.inj (Except.ok.inj hmodify)
  obtain ⟨rfl, rfl⟩ := Prod.mk.inj (Except.ok.inj h)
  exact ⟨rfl, hmax, hshort, rfl⟩

theorem defineType_takes {ty : Ty} {op : Opcode} {operands : List UInt32}
    (new : b.types.lookup ty = none) (spelled : b.Spells ty op operands)
    (narrow : ty ≠ .scalar .double) :
    (defineType ty op operands).Takes TypeStep b fun id b' =>
      b'.types.lookup ty = some id ∧ TypesUpTo (sizeOf ty) b b' := by
  intro id b' hr
  obtain ⟨rfl, hmax, hshort, rfl⟩ := defineType_eq_ok hr
  have hstep := TypeStep.type new spelled hshort hmax
  have hafter : b.withNewType ty op operands = { b with
      nextId := b.nextId + 1
      define := b.define ++ [⟨op, b.nextId :: operands⟩]
      types := (ty, b.nextId) :: b.types } := by
    simp [withNewType, narrow]
  rw [← hafter]
  exact ⟨.single hstep, List.lookup_cons_self, .withNewType b ty op operands⟩

theorem scalarTypeId_takes (s : ScalarType) :
    (scalarTypeId s).Takes TypeStep b fun id b' =>
      b'.types.lookup (.scalar s) = some id ∧ TypesUpTo (sizeOf (Ty.scalar s)) b b' := by
  refine internType_takes fun new => ?_
  cases s with
  | bool => exact defineType_takes new .bool (by simp)
  | float => exact defineType_takes new .float (by simp)
  | int => exact defineType_takes new .int (by simp)
  | uint => exact defineType_takes new .uint (by simp)
  | double =>
    intro id b' hr
    obtain ⟨_, b₁, hmodify, hr⟩ := bind_eq_ok.mp hr
    obtain ⟨-, rfl⟩ := Prod.mk.inj (Except.ok.inj hmodify)
    obtain ⟨rfl, hmax, hshort, rfl⟩ := defineType_eq_ok hr
    have hafter : b.withNewType (.scalar .double) .typeFloat [64] = { b with
        nextId := b.nextId + 1
        define := b.define ++ [⟨.typeFloat, [b.nextId, 64]⟩]
        types := (.scalar .double, b.nextId) :: b.types
        usesDouble := true } := by
      simp [withNewType]
    rw [← hafter]
    exact ⟨.single (.type new .double hshort hmax), List.lookup_cons_self,
      .withNewType b _ _ _⟩

theorem vectorTypeId_takes (s : ScalarType) (n : Dim) :
    (vectorTypeId s n).Takes TypeStep b fun id b' =>
      b'.types.lookup (.vector s n) = some id ∧ TypesUpTo (sizeOf (Ty.vector s n)) b b' := by
  refine internType_takes fun new => (scalarTypeId_takes s).bind fun c b₁ _ h => ?_
  have hsize : sizeOf (Ty.scalar s) < sizeOf (Ty.vector s n) := by
    simp only [Ty.scalar.sizeOf_spec, Ty.vector.sizeOf_spec]
    cases n <;> simp
  exact (defineType_takes ((h.2 _ hsize).trans new) (.vector h.1) (by simp)).mono
    fun id b' _ h' => ⟨h'.1, (h.2.mono (Nat.le_of_lt hsize)).trans h'.2⟩

theorem matrixTypeId_takes (s : ScalarType) (columns rows : Dim) :
    (matrixTypeId s columns rows).Takes TypeStep b fun id b' =>
      b'.types.lookup (.matrix s columns rows) = some id ∧
        TypesUpTo (sizeOf (Ty.matrix s columns rows)) b b' := by
  refine internType_takes fun new => (vectorTypeId_takes s rows).bind fun c b₁ _ h => ?_
  have hsize : sizeOf (Ty.vector s rows) < sizeOf (Ty.matrix s columns rows) := by
    simp only [Ty.vector.sizeOf_spec, Ty.matrix.sizeOf_spec]
    cases columns <;> simp
  exact (defineType_takes ((h.2 _ hsize).trans new) (.matrix h.1) (by simp)).mono
    fun id b' _ h' => ⟨h'.1, (h.2.mono (Nat.le_of_lt hsize)).trans h'.2⟩

mutual
/-- A type is defined behind the types that it is made of. What the tables have gets its id back. -/
theorem typeId_takes : ∀ (b : Builder) (ty : Ty), (typeId ty).Takes TypeStep b fun id b' =>
    b'.types.lookup ty = some id ∧ TypesUpTo (sizeOf ty) b b'
  | _, .void => internType_takes fun new => defineType_takes new .void (by simp)
  | _, .scalar s => scalarTypeId_takes s
  | _, .vector s n => vectorTypeId_takes s n
  | _, .matrix s columns rows => matrixTypeId_takes s columns rows
  | b, .struct name members => by
    have hsize : sizeOf members < sizeOf (Ty.struct name members) := by
      simp only [Ty.struct.sizeOf_spec]
      omega
    refine internType_takes fun new => ?_
    refine (memberTypeIds_takes b members).bind fun ids b₁ _ h => ?_
    refine (defineType_takes ((h.2 _ hsize).trans new) (.struct h.1) (by simp)).bind
      fun id b₂ _ h' => ?_
    have honly := (h.2.mono (Nat.le_of_lt hsize)).trans h'.2
    have hnamed {b₃ : Builder} (hsame : b₃.types = b₂.types) :
        (nameMembers id members >>= fun _ => pure id : Build Id).Takes TypeStep b₃ fun id b' =>
          b'.types.lookup (.struct name members) = some id ∧
            TypesUpTo (sizeOf (Ty.struct name members)) b b' := by
      refine (nameMembers_takes id members).bind fun _ b₄ _ hsame' => .pure ?_
      have htypes : b₄.types = b₂.types := hsame'.trans hsame
      exact ⟨htypes ▸ h'.1, fun u hu => htypes ▸ honly u hu⟩
    cases name with
    | none => exact hnamed rfl
    | some name => exact (nameId_takes id name).bind fun _ _ _ hsame => hnamed hsame
theorem memberTypeIds_takes : ∀ (b : Builder) (members : List (String × Ty)),
    (memberTypeIds members).Takes TypeStep b fun ids b' =>
      List.Forall₂ (fun m id => b'.types.lookup m.2 = some id) members ids ∧
        TypesUpTo (sizeOf members) b b'
  | _, [] => .pure ⟨.nil, fun _ _ => rfl⟩
  | b, (name, t) :: rest => by
    have hsize : sizeOf t ≤ sizeOf ((name, t) :: rest) ∧
        sizeOf rest ≤ sizeOf ((name, t) :: rest) := by
      simp only [List.cons.sizeOf_spec, Prod.mk.sizeOf_spec]
      omega
    refine (typeId_takes b t).bind fun id b₁ _ h => ?_
    refine (memberTypeIds_takes b₁ rest).bind fun ids b₂ hsteps h' => ?_
    exact .pure ⟨.cons ((keeps_of_types hsteps).types h.1) h'.1,
      (h.2.mono hsize.1).trans (h'.2.mono hsize.2)⟩
end

theorem typeId_defines (b : Builder) (ty : Ty) : (typeId ty).Takes DefinitionStep b fun id b' =>
    b'.types.lookup ty = some id ∧ b.SameTables b' := by
  intro id b' hr
  obtain ⟨hsteps, hid, -⟩ := typeId_takes b ty id b' hr
  exact ⟨ReflTransGen.mono (fun _ _ => .type) _ _ hsteps, hid, sameTables_of_steps hsteps⟩

/-- A pointer type is defined behind the type it points to. -/
theorem pointerTypeId_takes (b : Builder) (ty : Ty) (storage : Storage) :
    (pointerTypeId ty storage).Takes DefinitionStep b fun id b' =>
      b'.pointerTypes.lookup (ty, storage.storageClass) = some id := by
  refine .get_bind ?_
  cases hknown : b.pointerTypes.lookup (ty, storage.storageClass) with
  | some id => exact .pure hknown
  | none =>
    refine (typeId_defines b ty).bind fun pointee b₁ _ ⟨hpointee, hsame⟩ => ?_
    intro id b' hr
    obtain ⟨id', b₂, hfresh, hr⟩ := bind_eq_ok.mp hr
    obtain ⟨rfl, rfl, hmax⟩ := fresh_eq_ok hfresh
    obtain ⟨_, b₃, hadd, hr⟩ := bind_eq_ok.mp hr
    obtain ⟨rfl, -⟩ := add_eq_ok hadd
    obtain ⟨_, b₄, hmodify, hr⟩ := bind_eq_ok.mp hr
    obtain ⟨-, rfl⟩ := Prod.mk.inj (Except.ok.inj hmodify)
    obtain ⟨rfl, rfl⟩ := Prod.mk.inj (Except.ok.inj hr)
    have hnew : b₁.pointerTypes.lookup (ty, storage.storageClass) = none := hsame.pointers ▸ hknown
    exact ⟨.single (.pointer hnew hpointee hmax), List.lookup_cons_self⟩

/-- A constant enters the table under its id. -/
def internAs (ty : Ty) (data : List UInt8) (id : Id) : Build Id := do
  modify fun b => { b with values := ((ty, data), id) :: b.values }
  return id

theorem internValue_takes {ty : Ty} {data : List UInt8} {definition : Build Id}
    (h : b.values.lookup (ty, data) = none →
      (definition >>= internAs ty data).Takes DefinitionStep b fun id b' =>
        b'.values.lookup (ty, data) = some id ∧ ValuesUpTo (sizeOf ty) b b') :
    (internValue ty data definition).Takes DefinitionStep b fun id b' =>
      b'.values.lookup (ty, data) = some id ∧ ValuesUpTo (sizeOf ty) b b' := by
  refine .get_bind ?_
  cases hknown : b.values.lookup (ty, data) with
  | some id => exact .pure ⟨hknown, fun _ _ _ => rfl⟩
  | none => exact h hknown

/-- A constant is defined behind its type. Declaring the type defines no constant, so this one is
    still new. -/
theorem addConstant_takes {ty : Ty} {data : List UInt8} {op : Opcode} {operands : List UInt32}
    (new : b.values.lookup (ty, data) = none) (filled : b.Fills ty data op operands) :
    (addResult .define op ty operands >>= internAs ty data).Takes DefinitionStep b fun id b' =>
      b'.values.lookup (ty, data) = some id ∧ ValuesUpTo (sizeOf ty) b b' := by
  unfold addResult
  rw [bind_assoc]
  refine (typeId_defines b ty).bind fun type b₁ hsteps ⟨htype, hsame⟩ => ?_
  rw [bind_assoc]
  intro id b' hr
  obtain ⟨id', b₂, hfresh, hr⟩ := bind_eq_ok.mp hr
  obtain ⟨rfl, rfl, hmax⟩ := fresh_eq_ok hfresh
  rw [bind_assoc] at hr
  obtain ⟨_, b₃, hadd, hr⟩ := bind_eq_ok.mp hr
  obtain ⟨rfl, hshort⟩ := add_eq_ok hadd
  obtain ⟨rfl, rfl⟩ := Prod.mk.inj (Except.ok.inj hr)
  have hnew : b₁.values.lookup (ty, data) = none := hsame.values ▸ new
  refine ⟨.single (.value hnew htype (filled.keeps (keeps_of_definitions hsteps))
    hshort hmax), List.lookup_cons_self, fun u data' hu => ?_⟩
  rw [← hsame.values]
  exact ValuesUpTo.withNewValue b₁ ty data op type operands u data' hu

theorem scalarId_takes (b : Builder) (s : ScalarType) (data : List UInt8) :
    (scalarId s data).Takes DefinitionStep b fun id b' =>
      b'.values.lookup (.scalar s, data) = some id ∧ ValuesUpTo (sizeOf (Ty.scalar s)) b b' := by
  refine internValue_takes fun new => ?_
  split
  · exact .throw
  · exact addConstant_takes new (.true ‹_›)
  · exact addConstant_takes new (.false ‹_›)
  · rename_i x htrue hfalse hx
    refine addConstant_takes new (.scalar hx fun v => ?_)
    rintro rfl
    cases v
    · exact hfalse rfl
    · exact htrue rfl

/-- Parts of one type, one after the other. -/
theorem partIds_takes {ty : Ty} {part : List UInt8 → Build Id}
    (h : ∀ b data, (part data).Takes DefinitionStep b fun id b' =>
      b'.values.lookup (ty, data) = some id ∧ ValuesUpTo (sizeOf ty) b b')
    (size count : Nat) (b : Builder) (data : List UInt8) :
    (partIds part size count data).Takes DefinitionStep b fun ids b' =>
      List.Forall₂ (fun key id => b'.values.lookup key = some id)
        ((pieces size count data).map (ty, ·)) ids ∧ ValuesUpTo (sizeOf ty) b b' := by
  induction count generalizing b data with
  | zero => exact .pure ⟨.nil, fun _ _ _ => rfl⟩
  | succ count ih =>
    refine (h b _).bind fun id b₁ _ hid => (ih b₁ _).bind fun ids b₂ hsteps hids => ?_
    exact .pure ⟨.cons ((keeps_of_definitions hsteps).values hid.1) hids.1, hid.2.trans hids.2⟩

/-- A constant is defined behind its parts. These are smaller than it is, so defining them cannot
    define the constant itself, and it is still new behind them. -/
theorem addComposite_takes {ty : Ty} {data : List UInt8} {parts : Build (List Id)} {n : Nat}
    (new : b.values.lookup (ty, data) = none) (whole : ty.isScalar = false)
    (smaller : n < sizeOf ty)
    (h : parts.Takes DefinitionStep b fun ids b' =>
      List.Forall₂ (fun key id => b'.values.lookup key = some id) (ty.constantParts data) ids ∧
        ValuesUpTo n b b') :
    (parts >>= (addResult .define .constantComposite ty ·) >>= internAs ty data).Takes
      DefinitionStep b fun id b' =>
        b'.values.lookup (ty, data) = some id ∧ ValuesUpTo (sizeOf ty) b b' := by
  rw [bind_assoc]
  refine h.bind fun ids b₁ _ hids => ?_
  exact (addConstant_takes ((hids.2 _ _ smaller).trans new) (.composite whole hids.1)).mono
    fun id b' _ hid => ⟨hid.1, (hids.2.mono (Nat.le_of_lt smaller)).trans hid.2⟩

theorem vectorId_takes (b : Builder) (s : ScalarType) (n : Dim) (data : List UInt8) :
    (vectorId s n data).Takes DefinitionStep b fun id b' =>
      b'.values.lookup (.vector s n, data) = some id ∧
        ValuesUpTo (sizeOf (Ty.vector s n)) b b' := by
  have hsize : sizeOf (Ty.scalar s) < sizeOf (Ty.vector s n) := by
    simp only [Ty.scalar.sizeOf_spec, Ty.vector.sizeOf_spec]
    cases n <;> simp
  exact internValue_takes fun new => addComposite_takes new rfl hsize
    (partIds_takes (fun b data => scalarId_takes b s data) s.size n.toNat b data)

theorem matrixId_takes (b : Builder) (s : ScalarType) (columns rows : Dim) (data : List UInt8) :
    (matrixId s columns rows data).Takes DefinitionStep b fun id b' =>
      b'.values.lookup (.matrix s columns rows, data) = some id ∧
        ValuesUpTo (sizeOf (Ty.matrix s columns rows)) b b' := by
  have hsize : sizeOf (Ty.vector s rows) < sizeOf (Ty.matrix s columns rows) := by
    simp only [Ty.vector.sizeOf_spec, Ty.matrix.sizeOf_spec]
    cases columns <;> simp
  exact internValue_takes fun new => addComposite_takes new rfl hsize
    (partIds_takes (fun b data => vectorId_takes b s rows data) (s.size * rows.toNat) columns.toNat
      b data)

mutual
/-- A constant is defined behind the constants that it is made of. -/
theorem constantId_takes : ∀ (b : Builder) (ty : Ty) (data : List UInt8),
    (constantId ty data).Takes DefinitionStep b fun id b' =>
      b'.values.lookup (ty, data) = some id ∧ ValuesUpTo (sizeOf ty) b b'
  | _, .void, _ => .throw
  | b, .scalar s, data => scalarId_takes b s data
  | b, .vector s n, data => vectorId_takes b s n data
  | b, .matrix s columns rows, data => matrixId_takes b s columns rows data
  | b, .struct name members, data => by
    have hsize : sizeOf members < sizeOf (Ty.struct name members) := by
      simp only [Ty.struct.sizeOf_spec]
      omega
    exact internValue_takes fun new =>
      addComposite_takes new rfl hsize (memberIds_takes b members data)
theorem memberIds_takes : ∀ (b : Builder) (members : List (String × Ty)) (data : List UInt8),
    (memberIds members data).Takes DefinitionStep b fun ids b' =>
      List.Forall₂ (fun key id => b'.values.lookup key = some id) (memberPieces members data) ids ∧
        ValuesUpTo (sizeOf members) b b'
  | _, [], _ => .pure ⟨.nil, fun _ _ _ => rfl⟩
  | b, (name, t) :: rest, data => by
    have hsize : sizeOf t ≤ sizeOf ((name, t) :: rest) ∧
        sizeOf rest ≤ sizeOf ((name, t) :: rest) := by
      simp only [List.cons.sizeOf_spec, Prod.mk.sizeOf_spec]
      omega
    refine (constantId_takes b t _).bind fun id b₁ _ h => ?_
    refine (memberIds_takes b₁ rest _).bind fun ids b₂ hsteps h' => ?_
    exact .pure ⟨.cons ((keeps_of_definitions hsteps).values h.1) h'.1,
      (h.2.mono hsize.1).trans (h'.2.mono hsize.2)⟩
end

theorem valueId_takes (b : Builder) (v : Value) : (valueId v).Takes DefinitionStep b fun id b' =>
    b'.values.lookup (v.ty, v.data) = some id :=
  (constantId_takes b v.ty v.data).mono fun _ _ _ h => h.1

end Build

end ShaderExpr
