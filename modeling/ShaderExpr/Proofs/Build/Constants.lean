import ShaderExpr.Proofs.Build.Emission

namespace ShaderExpr

open Typing

theorem Scalar.type_of_ofBytes? {s : ScalarType} {data : List UInt8} {x : Scalar}
    (h : ofBytes? s data = some x) : x.type = s := by
  unfold ofBytes? at h
  split at h
  · unfold ofWords? at h
    split at h
    · rw [← Option.some.inj h]
      rfl
    · rw [← Option.some.inj h]
      rfl
    · rw [← Option.some.inj h]
      rfl
    · rw [← Option.some.inj h]
      rfl
    · rw [← Option.some.inj h]
      rfl
    · simp at h
  · simp at h

@[simp] theorem length_pieces (size count : Nat) (data : List UInt8) :
    (pieces size count data).length = count := by
  induction count generalizing data with
  | zero => rfl
  | succ count ih => simp [pieces, ih]

namespace Builder

variable {xs : List Variable} {casts : Bool} {b b' : Builder}

theorem SameCode.refl (b : Builder) : SameCode b b := ⟨rfl, rfl⟩

/-- Constants made of as many constants as there are pieces are made of a list of one type, as the
    components of a vector and the columns of a matrix are. -/
theorem forall₂_holds_replicate {R : List UInt8 → Id → Prop} {u : Ty} {size count : Nat}
    {data : List UInt8} {parts : List Id} (holds : ∀ data id, R data id → b.Holds u data id)
    (h : List.Forall₂ R (pieces size count data) parts) :
    List.Forall₂ (fun id u => ∃ data, b.Holds u data id) parts (List.replicate count u) := by
  have hlength : parts.length = count := by rw [← h.length_eq, length_pieces]
  have hparts := List.forall₂_replicate (R := fun id u => ∃ data, b.Holds u data id) (l := parts)
    (b := u) fun id hid => by
      obtain ⟨piece, -, hpiece⟩ := List.exists_of_forall₂ h id hid
      exact ⟨piece, holds piece id hpiece⟩
  rwa [hlength] at hparts

theorem HoldsMembers.forall₂ {ms : List (String × Ty)} {data : List UInt8} {parts : List Id}
    (h : b.HoldsMembers ms data parts) :
    List.Forall₂ (fun id u => ∃ data, b.Holds u data id) parts (ms.map (·.2)) := by
  induction ms generalizing data parts with
  | nil =>
    rw [show parts = [] from h]
    exact .nil
  | cons m ms ih =>
    obtain ⟨id, ids, rfl, hid, hids⟩ := h
    exact .cons ⟨_, hid⟩ (ih hids)

end Builder

namespace Build

open Builder

variable {xs : List Variable} {casts : Bool} {b b' : Builder}

/-- A constant that is defined has its id already, and else gets one from `definition`, which may
    define its parts on the way. -/
theorem internValue_attains (hs : b.Sound xs casts) {ty : Ty} {data : List UInt8}
    {definition : Build Id}
    (h : definition.Attains xs casts b fun id b' => b'.Holds ty data id ∧ SameCode b b') :
    (internValue ty data definition).Attains xs casts b fun id b' =>
      b'.Holds ty data id ∧ SameCode b b' := by
  refine .get_bind ?_
  cases hknown : b.values.lookup (ty, data) with
  | some id => exact .pure hs ⟨hs.values _ _ _ hknown, .refl b⟩
  | none =>
    refine h.bind fun id b₁ _ hs₁ ⟨hid, hsame⟩ => ?_
    have hincludes : Includes { b₁ with values := ((ty, data), id) :: b₁.values } b₁ :=
      .of_same rfl rfl rfl
    refine .modify_bind ((Grows.refl b₁).same rfl rfl rfl rfl rfl rfl) ?_
    exact .pure (hs₁.withValue hid) ⟨hid.mono hincludes, hsame.declared, hsame.code⟩

theorem scalarId_attains (hs : b.Sound xs casts) (s : ScalarType) (data : List UInt8) :
    (scalarId s data).Attains xs casts b fun id b' => b'.Holds (.scalar s) data id ∧ SameCode b b' := by
  refine internValue_attains hs ?_
  split
  · exact .throw
  · rename_i hx
    obtain rfl := Scalar.type_of_ofBytes? hx
    refine (addConstant_attains hs rfl rfl fun b' t id _ hs' ht => ?_).mono
      fun id b' _ _ ⟨⟨t, ht, hdefined⟩, hsame⟩ => ⟨⟨t, _, ht, hx, hdefined⟩, hsame⟩
    exact .constantBool (.inl rfl) (hs'.isScalar ht rfl)
  · rename_i hx
    obtain rfl := Scalar.type_of_ofBytes? hx
    refine (addConstant_attains hs rfl rfl fun b' t id _ hs' ht => ?_).mono
      fun id b' _ _ ⟨⟨t, ht, hdefined⟩, hsame⟩ => ⟨⟨t, _, ht, hx, hdefined⟩, hsame⟩
    exact .constantBool (.inr rfl) (hs'.isScalar ht rfl)
  · rename_i x htrue hfalse hx
    obtain rfl := Scalar.type_of_ofBytes? hx
    refine (addConstant_attains hs rfl rfl fun b' t id _ hs' ht => .constant ?_).mono
      fun id b' _ _ ⟨⟨t, ht, hdefined⟩, hsame⟩ => ⟨⟨t, x, ht, hx, ?_⟩, hsame⟩
    · have hdeclared := hs'.types _ _ ht
      cases x with
      | bool b => cases b <;> simp_all
      | float => exact .float hdeclared
      | double =>
        have hwords : LiteralWords b'.front t (UInt32.toNat 64 / 32) := .float hdeclared
        have hlength : UInt32.toNat 64 / 32 = 2 := by decide
        rw [hlength] at hwords
        exact hwords
      | int => exact .int hdeclared
      | uint => exact .int hdeclared
    · cases x with
      | bool b => cases b <;> simp_all
      | float | double | int | uint => exact hdefined

/-- Parts one behind the other, each from its piece of the bytes. Later parts leave what is known of
    earlier ones as it is, by `stable`. -/
theorem partIds_attains {R : Builder → List UInt8 → Id → Prop} {part : List UInt8 → Build Id}
    {size : Nat} (stable : ∀ b b' data id, b'.Includes b → R b data id → R b' data id)
    (h : ∀ {b : Builder}, b.Sound xs casts → ∀ data, (part data).Attains xs casts b fun id b' =>
      R b' data id ∧ SameCode b b') :
    ∀ (count : Nat) {b : Builder} (data : List UInt8), b.Sound xs casts →
      (partIds part size count data).Attains xs casts b fun ids b' =>
        List.Forall₂ (R b') (pieces size count data) ids ∧ SameCode b b' := by
  intro count
  induction count with
  | zero => exact fun data hs => .pure hs ⟨.nil, .refl _⟩
  | succ count ih =>
    intro b data hs
    refine (h hs _).bind fun id b₁ _ hs₁ ⟨hid, hsame⟩ => ?_
    refine (ih _ hs₁).bind fun ids b₂ hgrows hs₂ ⟨hids, hsame'⟩ => ?_
    exact .pure hs₂ ⟨.cons (stable b₁ b₂ _ id hgrows.includes hid) hids, hsame.trans hsame'⟩

/-- A constant made of others, one for each part that its type has, all of them defined already. -/
theorem addComposite_attains (hs : b.Sound xs casts) {ty : Ty} {parts : List Id} (hty : ty.isAllowed casts)
    (composite : ty.isScalar = false)
    (hparts : List.Forall₂ (fun id u => ∃ data, b.Holds u data id) parts ty.partTypes) :
    (addResult .define .constantComposite ty parts).Attains xs casts b fun id b' =>
      b'.HoldsParts ty id parts ∧ SameCode b b' := by
  refine addConstant_attains hs hty rfl fun b' t id hgrows hs' ht => ?_
  obtain ⟨us, hus, hdeclared⟩ := hs'.parts ht composite
  have hholds : List.Forall₂ (fun id u => ∃ data, b'.Holds u data id) parts ty.partTypes :=
    hparts.imp fun id u ⟨data, hdata⟩ => ⟨data, hdata.mono hgrows.includes⟩
  refine .constantComposite hus (forall₂_hasType (hholds.imp ?_) hdeclared) fun x hx => ?_
  · rintro id u ⟨data, hdata⟩
    obtain ⟨c, hc, htype, -⟩ := hdata.constant
    exact ⟨c, hc, htype⟩
  · obtain ⟨u, -, data, hdata⟩ := List.exists_of_forall₂ hholds.flip x hx
    obtain ⟨c, -, -, hconstant⟩ := hdata.constant
    exact hconstant

theorem vectorId_attains (hs : b.Sound xs casts) (s : ScalarType) (n : Dim) (data : List UInt8) :
    (vectorId s n data).Attains xs casts b fun id b' =>
      b'.Holds (.vector s n) data id ∧ SameCode b b' := by
  refine internValue_attains hs ?_
  refine (partIds_attains (R := fun b => b.HoldsScalar s)
    (fun b b' data id h hid => hid.mono h) (fun hs data => scalarId_attains hs s data) n.toNat data
    hs).bind fun parts b₁ _ hs₁ ⟨hparts, hsame⟩ => ?_
  have hholds : List.Forall₂ (fun id u => ∃ data, b₁.Holds u data id) parts
      (List.replicate n.toNat (.scalar s)) :=
    forall₂_holds_replicate (R := b₁.HoldsScalar s) (u := .scalar s) (fun _ _ h => h) hparts
  refine (addComposite_attains hs₁ rfl rfl hholds).mono ?_
  rintro id b' hgrows - ⟨hdefined, hsame'⟩
  exact ⟨⟨parts, hdefined, hparts.imp fun _ _ h => h.mono hgrows.includes⟩, hsame.trans hsame'⟩

theorem matrixId_attains (hs : b.Sound xs casts) {s : ScalarType}
    (allowed : casts || s.isFloating) (columns rows : Dim) (data : List UInt8) :
    (matrixId s columns rows data).Attains xs casts b fun id b' =>
      b'.Holds (.matrix s columns rows) data id ∧ SameCode b b' := by
  refine internValue_attains hs ?_
  refine (partIds_attains (R := fun b => b.HoldsVector s rows)
    (fun b b' data id h hid => hid.mono h) (fun hs data => vectorId_attains hs s rows data)
    columns.toNat data hs).bind fun parts b₁ _ hs₁ ⟨hparts, hsame⟩ => ?_
  have hholds : List.Forall₂ (fun id u => ∃ data, b₁.Holds u data id) parts
      (List.replicate columns.toNat (.vector s rows)) :=
    forall₂_holds_replicate (R := b₁.HoldsVector s rows) (u := .vector s rows)
      (fun _ _ h => h) hparts
  have hty : (Ty.matrix s columns rows).isAllowed casts := allowed
  refine (addComposite_attains hs₁ hty rfl hholds).mono ?_
  rintro id b' hgrows - ⟨hdefined, hsame'⟩
  exact ⟨⟨parts, hdefined, hparts.imp fun _ _ h => h.mono hgrows.includes⟩, hsame.trans hsame'⟩

mutual
/-- A constant of any type is defined in front of the code, behind the constants that it is made of.
    -/
theorem constantId_attains : ∀ {b : Builder}, b.Sound xs casts → ∀ (ty : Ty) (data : List UInt8),
    ty.isAllowed casts → (constantId ty data).Attains xs casts b fun id b' =>
      b'.Holds ty data id ∧ SameCode b b'
  | _, _, .void, _, _ => .throw
  | _, hs, .scalar s, data, _ => scalarId_attains hs s data
  | _, hs, .vector s n, data, _ => vectorId_attains hs s n data
  | _, hs, .matrix s columns rows, data, hallowed => matrixId_attains hs hallowed columns rows data
  | _, hs, .struct name members, data, hallowed => by
    refine internValue_attains hs ?_
    refine (memberIds_attains hs members data hallowed).bind
      fun parts b₁ _ hs₁ ⟨hparts, hsame⟩ => ?_
    refine (addComposite_attains hs₁ hallowed rfl hparts.forall₂).mono ?_
    rintro id b' hgrows - ⟨hdefined, hsame'⟩
    exact ⟨⟨parts, hdefined, hparts.mono hgrows.includes⟩, hsame.trans hsame'⟩
theorem memberIds_attains : ∀ {b : Builder}, b.Sound xs casts →
    ∀ (members : List (String × Ty)) (data : List UInt8), Ty.membersAllowed casts members →
      (memberIds members data).Attains xs casts b fun ids b' =>
        b'.HoldsMembers members data ids ∧ SameCode b b'
  | b, hs, [], _, _ => .pure hs ⟨rfl, .refl b⟩
  | _, hs, (_, t) :: rest, data, hallowed => by
    obtain ⟨ht, hrest⟩ := Bool.and_eq_true_iff.mp hallowed
    refine (constantId_attains hs t _ ht).bind fun id b₁ _ hs₁ ⟨hid, hsame⟩ => ?_
    refine (memberIds_attains hs₁ rest _ hrest).bind fun ids b₂ hgrows hs₂ ⟨hids, hsame'⟩ => ?_
    exact .pure hs₂ ⟨⟨id, ids, rfl, hid.mono hgrows.includes, hids⟩, hsame.trans hsame'⟩
end

theorem valueId_attains (hs : b.Sound xs casts) (v : Value) (hv : v.ty.isAllowed casts) :
    (valueId v).Attains xs casts b fun id b' => b'.Holds v.ty v.data id ∧ SameCode b b' :=
  constantId_attains hs v.ty v.data hv

theorem zeroId_attains (hs : b.Sound xs casts) {ty : Ty} (hty : ty.isAllowed casts) :
    (zeroId ty).Attains xs casts b fun id b' =>
      b'.Holds ty (Value.zero ty).data id ∧ SameCode b b' :=
  valueId_attains hs (.zero ty) hty

theorem oneId_attains (hs : b.Sound xs casts) {ty : Ty} (hty : ty.isAllowed casts) :
    (oneId ty).Attains xs casts b fun id b' => b'.Typed id ty := by
  unfold oneId
  split
  · exact .throw
  · rename_i s hcomponent
    refine (valueId_attains hs _ ?_).mono fun id b' _ _ ⟨hid, _⟩ => ?_
    · rw [Value.ofComponents_ty]
      exact hty
    · rw [Value.ofComponents_ty] at hid
      exact hid.typed

end Build

end ShaderExpr
