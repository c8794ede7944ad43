import ShaderExpr.Proofs.Ids.Numbered

namespace ShaderExpr

open Instruction

namespace Builder

/-- The stores among instructions. -/
def stores (is : List Instruction) : List Instruction := is.filter (·.op = .store)

/-- No store was added to the code. -/
def Silent (b b' : Builder) : Prop := stores b'.code = stores b.code

theorem Silent.of_code {b b' : Builder} (h : b'.code = b.code) : b.Silent b' :=
  congrArg stores h

theorem Silent.trans {b b' b'' : Builder} (h : b.Silent b') (h' : b'.Silent b'') : b.Silent b'' :=
  Eq.trans h' h

/-- An id with a meaning in front of the code, while no variable was declared. -/
structure Defines (b : Builder) (id : Id) (b' : Builder) : Prop where
  given : id ∈ results b'.front
  declared : b'.declared = b.declared

structure DefinesAll (b : Builder) (ids : List Id) (b' : Builder) : Prop where
  given : ∀ id ∈ ids, id ∈ results b'.front
  declared : b'.declared = b.declared

end Builder

namespace Build

open Builder

variable {α β : Type} {pending : List Id} {b b' : Builder}

/-- Building from `b` fails, or adds meanings but no stores and ends as `Q` says. Nothing is said of
    runs that fail. -/
def Gives (pending : List Id) (r : Build α) (b : Builder) (Q : α → Builder → Prop) : Prop :=
  ∀ a b', r b = .ok (a, b') → b.Later b' ∧ b'.Numbered pending ∧ b.Silent b' ∧ Q a b'

namespace Gives

variable {r : Build α} {f : α → Build β} {P Q : α → Builder → Prop} {R : β → Builder → Prop}

theorem mono (h : r.Gives pending b P)
    (hPQ : ∀ a b', b.Later b' → b'.Numbered pending → P a b' → Q a b') : r.Gives pending b Q := by
  intro a b' hr
  obtain ⟨hlater, hn, hsilent, hP⟩ := h a b' hr
  exact ⟨hlater, hn, hsilent, hPQ a b' hlater hn hP⟩

theorem pure {a : α} (hn : b.Numbered pending) (h : Q a b) :
    (pure a : Build α).Gives pending b Q := by
  intro a' b' hr
  obtain ⟨rfl, rfl⟩ : a = a' ∧ b = b' := Prod.mk.inj (Except.ok.inj hr)
  exact ⟨.refl b, hn, .of_code rfl, h⟩

theorem ite {p : Prop} [Decidable p] {r r' : Build α} (h : r.Gives pending b Q)
    (h' : r'.Gives pending b Q) : (if p then r else r').Gives pending b Q := by
  split
  · exact h
  · exact h'

theorem throw {e : Fault} : (throw e : Build α).Gives pending b Q := by
  intro a b' hr
  have hfault : (Except.error e : Except Fault (α × Builder)) = .ok (a, b') := hr
  simp at hfault

/-- A step that changes nothing else, in front of others that settle its pending ids. Neither it nor
    they add a store. -/
theorem step_bind (pending' : List Id) (h : ∀ a b', r b = .ok (a, b') → b.Later b' ∧
      b'.Numbered pending' ∧ b.Silent b' ∧ P a b')
    (hf : ∀ a b', b.Later b' → b'.Numbered pending' → P a b' → (f a).Gives pending b' R) :
    (r >>= f).Gives pending b R := by
  intro c b'' hr
  obtain ⟨a, b', ha, hc⟩ := bind_eq_ok.mp hr
  obtain ⟨hlater, hn, hsilent, hP⟩ := h a b' ha
  obtain ⟨hlater', hn', hsilent', hR⟩ := hf a b' hlater hn hP c b'' hc
  exact ⟨hlater.trans hlater', hn', hsilent.trans hsilent', hR⟩

theorem bind (h : r.Gives pending b P)
    (hf : ∀ a b', b.Later b' → b'.Numbered pending → P a b' → (f a).Gives pending b' R) :
    (r >>= f).Gives pending b R :=
  step_bind pending h hf

theorem get_bind {f : Builder → Build β} (h : (f b).Gives pending b R) :
    ((get : Build Builder) >>= f).Gives pending b R := h

theorem modify_bind {g : Builder → Builder} {f : Unit → Build β} (later : b.Later (g b))
    (code : (g b).code = b.code) (h : (f ()).Gives pending (g b) R) :
    ((modify g : Build Unit) >>= f).Gives pending b R := by
  intro c b' hr
  obtain ⟨hlater, hn, hsilent, hR⟩ := h c b' hr
  exact ⟨later.trans hlater, hn, (Silent.of_code code).trans hsilent, hR⟩

/-- A computation without a state, for those of its results that are no fault. -/
theorem except_bind {x : Except Fault α} (h : ∀ a, x = .ok a → (f a).Gives pending b R) :
    ((liftM x : Build α) >>= f).Gives pending b R := by
  intro c b' hr
  cases x with
  | error cause =>
    have hfault : (Except.error cause : Except Fault (β × Builder)) = .ok (c, b') := hr
    simp at hfault
  | ok a => exact h a rfl c b' hr

theorem except {x : Except Fault α} (hn : b.Numbered pending) (h : ∀ a, x = .ok a → Q a b) :
    (liftM x : Build α).Gives pending b Q := by
  rw [← bind_pure (liftM x : Build α)]
  exact except_bind fun a ha => .pure hn (h a ha)

/-- The next id, which is about to get its meaning. Until then it is pending, and no table has it.
    -/
theorem fresh_bind {f : Id → Build β} (hn : b.Numbered pending)
    (h : ∀ id b', b.Later b' → b'.Numbered (id :: pending) → b'.front = b.front →
      b'.declared = b.declared → b'.extendedSet = b.extendedSet → b.nextId = id →
      id.toNat < b'.nextId.toNat → (f id).Gives pending b' R) :
    (fresh >>= f).Gives pending b R := by
  intro c b'' hr
  obtain ⟨id, b', hfresh, hc⟩ := bind_eq_ok.mp hr
  obtain ⟨rfl, rfl, hmax⟩ := fresh_eq_ok hfresh
  have hnext := toNat_add_one hmax
  have hlater := Later.withNextId hmax
  have hreserved : b.nextId.toNat < (b.nextId + 1).toNat := by omega
  obtain ⟨hlater', hn', hsilent, hR⟩ :=
    h _ _ hlater (hn.reserve hmax) rfl rfl rfl rfl hreserved c b'' hc
  exact ⟨hlater.trans hlater', hn', (Silent.of_code rfl).trans hsilent, hR⟩

/-- A pending id gets its meaning by a definition, behind everything that the definition uses. -/
theorem define_bind {f : Unit → Build β} {op : Opcode} {operands : List UInt32} {id : Id}
    (hn : b.Numbered (id :: pending)) (hresult : Instruction.result? ⟨op, operands⟩ = some id)
    (uses : ∀ x ∈ Instruction.uses ⟨op, operands⟩, x ∈ results b.front)
    (h : ∀ b', b.Later b' → b'.Numbered pending → ⟨op, operands⟩ ∈ b'.define →
      b'.declared = b.declared → (f ()).Gives pending b' R) :
    (add .define op operands >>= f).Gives pending b R := by
  refine step_bind pending (P := fun _ b' => ⟨op, operands⟩ ∈ b'.define ∧
    b'.declared = b.declared) (fun _ b' hadd => ?_) fun _ b' hlater hn' ⟨hmem, hdeclared⟩ =>
      h b' hlater hn' hmem hdeclared
  obtain ⟨rfl, -⟩ := add_eq_ok hadd
  exact ⟨.withDefinition b _, hn.settleDefinition hresult uses, .of_code rfl,
    List.mem_append_right _ (List.mem_singleton_self _), rfl⟩

/-- Elements of a list, one after the other. What is said of a result must not be lost while the
    later ones are built, which is what `stable` asks. -/
theorem mapM {P : β → Builder → Prop} {l : List α}
    (stable : ∀ y b b', Builder.Later b b' → P y b → P y b') (hn : b.Numbered pending)
    (h : ∀ x ∈ l, ∀ b', b.Later b' → b'.Numbered pending → (f x).Gives pending b' P) :
    (l.mapM f).Gives pending b fun ys b' => ∀ y ∈ ys, P y b' := by
  induction l generalizing b with
  | nil => exact .pure hn (by simp)
  | cons x l ih =>
    rw [List.mapM_cons]
    refine (h x List.mem_cons_self b (.refl b) hn).bind fun y b₁ hlater hn₁ hy => ?_
    refine (ih hn₁ fun z hz b' hlater' => h z (List.mem_cons_of_mem x hz) b'
      (hlater.trans hlater')).bind fun ys b₂ hlater₂ hn₂ hys => .pure hn₂ fun z hz => ?_
    rcases List.mem_cons.mp hz with rfl | hz
    · exact stable _ _ _ hlater₂ hy
    · exact hys z hz

end Gives

/-- A name for debuggers. It may stand in front of the id that it names, which has only to be handed
    out. -/
theorem debug_gives (hn : b.Numbered pending) {op : Opcode} {operands : List UInt32}
    (ahead : op.refersAhead) (hresult : Instruction.result? ⟨op, operands⟩ = none)
    (uses : ∀ x ∈ Instruction.uses ⟨op, operands⟩, 1 ≤ x.toNat ∧ x.toNat < b.nextId.toNat) :
    (add .debug op operands).Gives pending b fun _ b' => b'.declared = b.declared ∧
      b'.front = b.front := by
  intro _ b' hr
  obtain ⟨rfl, -⟩ := add_eq_ok hr
  exact ⟨.of_same rfl rfl rfl rfl rfl rfl rfl, hn.withDebug ahead hresult uses, .of_code rfl, rfl,
    rfl⟩

theorem nameId_gives (hn : b.Numbered pending) {id : Id} (name : String)
    (hid : 1 ≤ id.toNat ∧ id.toNat < b.nextId.toNat) :
    (nameId id name).Gives pending b fun _ b' => b'.declared = b.declared ∧ b'.front = b.front := by
  refine .get_bind ?_
  split
  · exact debug_gives hn rfl rfl (by simpa [Instruction.uses] using hid)
  · exact .pure hn ⟨rfl, rfl⟩

theorem nameMembers_gives (hn : b.Numbered pending) {id : Id} (members : List (String × Ty))
    (hid : 1 ≤ id.toNat ∧ id.toNat < b.nextId.toNat) :
    (nameMembers id members).Gives pending b fun _ b' => b'.declared = b.declared ∧
      b'.front = b.front := by
  refine .get_bind ?_
  split
  · rename_i hnames
    clear hnames
    generalize members.zipIdx = entries
    induction entries generalizing b with
    | nil => exact .pure hn ⟨rfl, rfl⟩
    | cons entry entries ih =>
      refine (debug_gives hn rfl rfl (by simpa [Instruction.uses] using hid)).bind
        fun _ b₁ hlater hn₁ ⟨hdeclared, hfront⟩ => ?_
      exact (ih hn₁ ⟨hid.1, Nat.lt_of_lt_of_le hid.2 hlater.nextId⟩).mono
        fun _ b' _ _ h => ⟨h.1.trans hdeclared, h.2.trans hfront⟩
  · exact .pure hn ⟨rfl, rfl⟩

/-- A type that is declared has its id already, and else gets one. -/
theorem internType_gives (hn : b.Numbered pending) {ty : Ty} {definition : Build Id}
    (h : definition.Gives pending b b.Defines) :
    (internType ty definition).Gives pending b b.Defines := by
  refine .get_bind ?_
  cases hty : b.types.lookup ty with
  | some id => exact .pure hn ⟨hn.types ty id hty, rfl⟩
  | none => exact h

/-- A new type is declared behind what it is made of. -/
theorem defineType_gives (hn : b.Numbered pending) {ty : Ty} {op : Opcode} {operands : List UInt32}
    (declares : op.resultPosition? = some 0)
    (uses : ∀ id, ∀ x ∈ Instruction.uses ⟨op, id :: operands⟩, x ∈ results b.front) :
    (defineType ty op operands).Gives pending b b.Defines := by
  unfold defineType
  refine .fresh_bind hn fun id b₁ _ hn₁ hfront hdeclared _ _ _ => ?_
  have hresult : Instruction.result? ⟨op, id :: operands⟩ = some id := by
    rw [Instruction.result?, declares]
    rfl
  refine .define_bind hn₁ hresult (hfront ▸ uses id) fun b₂ _ hn₂ hmem hdeclared₂ => ?_
  have hid := mem_front_of_define hmem hresult
  exact .modify_bind (.of_same rfl rfl rfl rfl rfl rfl rfl) rfl
    (.pure (hn₂.withType hid) ⟨hid, hdeclared₂.trans hdeclared⟩)

theorem scalarTypeId_gives (hn : b.Numbered pending) (s : ScalarType) :
    (scalarTypeId s).Gives pending b b.Defines := by
  refine internType_gives hn ?_
  cases s with
  | bool | float | int | uint => exact defineType_gives hn rfl (by simp [Instruction.uses])
  | double =>
    refine .modify_bind (.of_same rfl rfl rfl rfl rfl rfl rfl) rfl ?_
    have hn' : Numbered pending { b with usesDouble := true } :=
      hn.same rfl rfl rfl rfl rfl rfl hn.types hn.pointers hn.values hn.declared hn.distinct
        hn.interface hn.debug ⟨rfl, rfl⟩
    exact (defineType_gives hn' rfl (by simp [Instruction.uses])).mono
      fun id b' _ _ h => ⟨h.given, h.declared⟩

theorem vectorTypeId_gives (hn : b.Numbered pending) (s : ScalarType) (n : Dim) :
    (vectorTypeId s n).Gives pending b b.Defines := by
  refine internType_gives hn ?_
  refine (scalarTypeId_gives hn s).bind fun c b₁ _ hn₁ ⟨hc, hdeclared⟩ => ?_
  exact (defineType_gives hn₁ rfl (by simpa [Instruction.uses] using hc)).mono
    fun id b' _ _ h => ⟨h.1, h.2.trans hdeclared⟩

theorem matrixTypeId_gives (hn : b.Numbered pending) (s : ScalarType) (columns rows : Dim) :
    (matrixTypeId s columns rows).Gives pending b b.Defines := by
  refine internType_gives hn ?_
  refine (vectorTypeId_gives hn s rows).bind fun c b₁ _ hn₁ ⟨hc, hdeclared⟩ => ?_
  exact (defineType_gives hn₁ rfl (by simpa [Instruction.uses] using hc)).mono
    fun id b' _ _ h => ⟨h.1, h.2.trans hdeclared⟩

mutual
theorem typeId_gives : ∀ {b : Builder}, b.Numbered pending → ∀ ty : Ty,
    (typeId ty).Gives pending b b.Defines
  | _, hn, .void => internType_gives hn (defineType_gives hn rfl (by simp [Instruction.uses]))
  | _, hn, .scalar s => scalarTypeId_gives hn s
  | _, hn, .vector s n => vectorTypeId_gives hn s n
  | _, hn, .matrix s columns rows => matrixTypeId_gives hn s columns rows
  | b, hn, .struct name members => by
    refine internType_gives hn ?_
    refine (memberTypeIds_gives hn members).bind fun ids b₁ _ hn₁ ⟨hids, hdeclared⟩ => ?_
    refine (defineType_gives hn₁ rfl (by simpa [Instruction.uses] using hids)).bind
      fun id b₂ _ hn₂ ⟨hid, hdeclared₂⟩ => ?_
    have hnamed {b₃ : Builder} (hn₃ : b₃.Numbered pending) (hfront : b₃.front = b₂.front)
        (hdeclared₃ : b₃.declared = b₂.declared) :
        (nameMembers id members >>= fun _ => pure id : Build Id).Gives pending b₃ b.Defines := by
      have hid₃ : id ∈ results b₃.front := hfront ▸ hid
      refine (nameMembers_gives hn₃ members (hn₃.bounds (.inr (mem_known_of_front hid₃)))).bind
        fun _ b₄ _ hn₄ ⟨hdeclared₄, hfront₄⟩ => ?_
      exact .pure hn₄ ⟨hfront₄ ▸ hid₃,
        ((hdeclared₄.trans hdeclared₃).trans hdeclared₂).trans hdeclared⟩
    cases name with
    | none => exact hnamed hn₂ rfl rfl
    | some name =>
      exact (nameId_gives hn₂ name (hn₂.bounds (.inr (mem_known_of_front hid)))).bind
        fun _ b₃ _ hn₃ ⟨hdeclared₃, hfront₃⟩ => hnamed hn₃ hfront₃ hdeclared₃
theorem memberTypeIds_gives : ∀ {b : Builder}, b.Numbered pending →
    ∀ members : List (String × Ty), (memberTypeIds members).Gives pending b b.DefinesAll
  | _, hn, [] => .pure hn ⟨by simp, rfl⟩
  | _, hn, (_, t) :: rest => by
    refine (typeId_gives hn t).bind fun id b₁ _ hn₁ ⟨hid, hdeclared⟩ => ?_
    refine (memberTypeIds_gives hn₁ rest).bind fun ids b₂ hlater hn₂ ⟨hids, hdeclared₂⟩ => ?_
    refine .pure hn₂ ⟨fun x hx => ?_, hdeclared₂.trans hdeclared⟩
    rcases List.mem_cons.mp hx with rfl | hx
    · exact hlater.front hid
    · exact hids x hx
end

theorem pointerTypeId_gives (hn : b.Numbered pending) (ty : Ty) (storage : Storage) :
    (pointerTypeId ty storage).Gives pending b b.Defines := by
  refine .get_bind ?_
  cases hknown : b.pointerTypes.lookup (ty, storage.storageClass) with
  | some id => exact .pure hn ⟨hn.pointers _ id hknown, rfl⟩
  | none =>
    refine (typeId_gives hn ty).bind fun pointee b₁ _ hn₁ ⟨hpointee, hdeclared⟩ => ?_
    refine .fresh_bind hn₁ fun id b₂ _ hn₂ hfront hdeclared₂ _ _ _ => ?_
    refine .define_bind hn₂ rfl (by simpa [Instruction.uses, hfront] using hpointee)
      fun b₃ _ hn₃ hmem hdeclared₃ => ?_
    have hid : id ∈ results b₃.front := mem_front_of_define hmem rfl
    exact .modify_bind (.of_same rfl rfl rfl rfl rfl rfl rfl) rfl
      (.pure (hn₃.withPointer hid) ⟨hid, (hdeclared₃.trans hdeclared₂).trans hdeclared⟩)

/-- A definition with a result of a type. What it uses, other than its type, is defined in front of
    it. -/
theorem addDefinition_gives (hn : b.Numbered pending) {op : Opcode} {ty : Ty}
    {operands : List UInt32} (typed : op.resultPosition? = some 1)
    (uses : ∀ t id, ∀ x ∈ Instruction.uses ⟨op, t :: id :: operands⟩, x = t ∨ x ∈ results b.front) :
    (addResult .define op ty operands).Gives pending b b.Defines := by
  unfold addResult
  refine (typeId_gives hn ty).bind fun t b₁ hlater hn₁ ⟨ht, hdeclared⟩ => ?_
  refine .fresh_bind hn₁ fun id b₂ _ hn₂ hfront hdeclared₂ _ _ _ => ?_
  have hresult : Instruction.result? ⟨op, t :: id :: operands⟩ = some id := by
    rw [Instruction.result?, typed]
    rfl
  refine .define_bind hn₂ hresult (fun x hx => ?_) fun b₃ _ hn₃ hmem hdeclared₃ =>
    .pure hn₃ ⟨mem_front_of_define hmem hresult, (hdeclared₃.trans hdeclared₂).trans hdeclared⟩
  rw [hfront]
  rcases uses t id x hx with rfl | hx
  · exact ht
  · exact hlater.front hx

theorem internValue_gives (hn : b.Numbered pending) {ty : Ty} {data : List UInt8}
    {definition : Build Id}
    (h : definition.Gives pending b b.Defines) :
    (internValue ty data definition).Gives pending b b.Defines := by
  refine .get_bind ?_
  cases hknown : b.values.lookup (ty, data) with
  | some id => exact .pure hn ⟨hn.values _ id hknown, rfl⟩
  | none =>
    refine h.bind fun id b₁ _ hn₁ ⟨hid, hdeclared⟩ => ?_
    exact .modify_bind (.of_same rfl rfl rfl rfl rfl rfl rfl) rfl
      (.pure (hn₁.withValue hid) ⟨hid, hdeclared⟩)

theorem scalarId_gives (hn : b.Numbered pending) (s : ScalarType) (data : List UInt8) :
    (scalarId s data).Gives pending b b.Defines := by
  refine internValue_gives hn ?_
  split
  · exact .throw
  · exact addDefinition_gives hn rfl (by simp [Instruction.uses])
  · exact addDefinition_gives hn rfl (by simp [Instruction.uses])
  · exact addDefinition_gives hn rfl (by simp [Instruction.uses])

/-- A constant made of others. -/
theorem addComposite_gives (hn : b.Numbered pending) (ty : Ty) {parts : List Id}
    (hparts : ∀ id ∈ parts, id ∈ results b.front) :
    (addResult .define .constantComposite ty parts).Gives pending b b.Defines :=
  addDefinition_gives hn rfl fun t id x hx => by
    rcases List.mem_cons.mp (show x ∈ t :: parts from hx) with rfl | hx
    · exact .inl rfl
    · exact .inr (hparts x hx)

/-- Parts one behind the other. -/
theorem partIds_gives {part : List UInt8 → Build Id} {size : Nat}
    (h : ∀ {b : Builder}, b.Numbered pending → ∀ data, (part data).Gives pending b b.Defines) :
    ∀ (count : Nat) {b : Builder} (data : List UInt8), b.Numbered pending →
      (partIds part size count data).Gives pending b b.DefinesAll := by
  intro count
  induction count with
  | zero => exact fun data hn => .pure hn ⟨by simp, rfl⟩
  | succ count ih =>
    intro b data hn
    refine (h hn _).bind fun id b₁ _ hn₁ ⟨hid, hdeclared⟩ => ?_
    refine (ih _ hn₁).bind fun ids b₂ hlater hn₂ ⟨hids, hdeclared₂⟩ => ?_
    refine .pure hn₂ ⟨fun x hx => ?_, hdeclared₂.trans hdeclared⟩
    rcases List.mem_cons.mp hx with rfl | hx
    · exact hlater.front hid
    · exact hids x hx

theorem vectorId_gives (hn : b.Numbered pending) (s : ScalarType) (n : Dim) (data : List UInt8) :
    (vectorId s n data).Gives pending b b.Defines := by
  refine internValue_gives hn ?_
  refine (partIds_gives (fun hn data => scalarId_gives hn s data) n.toNat data hn).bind
    fun parts b₁ _ hn₁ ⟨hparts, hdeclared⟩ => ?_
  exact (addComposite_gives hn₁ _ hparts).mono fun id b' _ _ h => ⟨h.1, h.2.trans hdeclared⟩

theorem matrixId_gives (hn : b.Numbered pending) (s : ScalarType) (columns rows : Dim)
    (data : List UInt8) : (matrixId s columns rows data).Gives pending b b.Defines := by
  refine internValue_gives hn ?_
  refine (partIds_gives (fun hn data => vectorId_gives hn s rows data) columns.toNat data hn).bind
    fun parts b₁ _ hn₁ ⟨hparts, hdeclared⟩ => ?_
  exact (addComposite_gives hn₁ _ hparts).mono fun id b' _ _ h => ⟨h.1, h.2.trans hdeclared⟩

mutual
theorem constantId_gives : ∀ {b : Builder}, b.Numbered pending → ∀ (ty : Ty) (data : List UInt8),
    (constantId ty data).Gives pending b b.Defines
  | _, _, .void, _ => .throw
  | _, hn, .scalar s, data => scalarId_gives hn s data
  | _, hn, .vector s n, data => vectorId_gives hn s n data
  | _, hn, .matrix s columns rows, data => matrixId_gives hn s columns rows data
  | _, hn, .struct name members, data => by
    refine internValue_gives hn ?_
    refine (memberIds_gives hn members data).bind fun parts b₁ _ hn₁ ⟨hparts, hdeclared⟩ => ?_
    exact (addComposite_gives hn₁ _ hparts).mono fun id b' _ _ h => ⟨h.1, h.2.trans hdeclared⟩
theorem memberIds_gives : ∀ {b : Builder}, b.Numbered pending →
    ∀ (members : List (String × Ty)) (data : List UInt8),
      (memberIds members data).Gives pending b b.DefinesAll
  | _, hn, [], _ => .pure hn ⟨by simp, rfl⟩
  | _, hn, (_, t) :: rest, data => by
    refine (constantId_gives hn t _).bind fun id b₁ _ hn₁ ⟨hid, hdeclared⟩ => ?_
    refine (memberIds_gives hn₁ rest _).bind fun ids b₂ hlater hn₂ ⟨hids, hdeclared₂⟩ => ?_
    refine .pure hn₂ ⟨fun x hx => ?_, hdeclared₂.trans hdeclared⟩
    rcases List.mem_cons.mp hx with rfl | hx
    · exact hlater.front hid
    · exact hids x hx
end

theorem valueId_gives (hn : b.Numbered pending) (v : Value) :
    (valueId v).Gives pending b b.Defines :=
  constantId_gives hn v.ty v.data

/-- The table of variables knows a variable from now on. By `new` and `other` the table stays one of
    distinct variables and distinct ids. -/
theorem register_gives (hn : b.Numbered []) {x : Variable} {id : Id}
    (new : b.declared.lookup x.id = none) (hid : b.IsVariable id)
    (other : ∀ k, b.declared.lookup k ≠ some id) :
    (do
      nameId id x.name
      modify fun b => { b with declared := (x.id, id) :: b.declared }
      return id : Build Id).Gives [] b fun id b' => b'.declared.lookup x.id = some id := by
  refine (nameId_gives hn x.name (hn.bounds (.inr (mem_known_of_outer hid.mem_outer)))).bind
    fun _ b₁ hlater hn₁ ⟨hdeclared, _⟩ => ?_
  have hn₂ := hn₁.withDeclared (k := x.id) (hlater.places id hid) (hdeclared ▸ other)
  refine .modify_bind ⟨fun _ h => h, fun _ h => h, fun _ h => h, ⟨[], by simp⟩, fun k id' hk => ?_,
    Nat.le_refl _⟩ rfl (.pure hn₂ ?_)
  · have hne : (k == x.id) = false := by
      refine beq_eq_false_iff_ne.mpr ?_
      rintro rfl
      rw [hdeclared, new] at hk
      simp at hk
    rw [List.lookup_cons, hne]
    exact hk
  · rw [List.lookup_cons, beq_self_eq_true]

/-- A variable behind the type of the pointer to it, and the constant that it starts with. By
    `other`, no other variable has its id. -/
theorem place_gives {id pointer : Id} {x : Variable} (storage : Storage) (initial : List Id)
    (hn : b.Numbered [id]) (hpointer : pointer ∈ results b.front)
    (hinitial : ∀ y ∈ initial, y ∈ results b.front) (new : b.declared.lookup x.id = none)
    (other : ∀ k, b.declared.lookup k ≠ some id) :
    (do
      add (if storage = .body then Section.declare else .define) .var
        ([pointer, id, storage.storageClass.number] ++ initial)
      if storage = .input || storage = .output then
        modify fun b => { b with interface := b.interface ++ [id] }
      nameId id x.name
      modify fun b => { b with declared := (x.id, id) :: b.declared }
      return id : Build Id).Gives [] b fun id b' => b'.declared.lookup x.id = some id := by
  have huses : ∀ y ∈ Instruction.uses ⟨.var, [pointer, id, storage.storageClass.number] ++ initial⟩,
      y ∈ results b.front := by
    intro y hy
    rcases List.mem_cons.mp (show y ∈ pointer :: initial from hy) with rfl | hy
    · exact hpointer
    · exact hinitial y hy
  have hrest {b' : Builder} (hn' : b'.Numbered []) (hid : b'.IsVariable id)
      (hdeclared : b'.declared = b.declared) : (do
      if storage = .input || storage = .output then
        modify fun b => { b with interface := b.interface ++ [id] }
      nameId id x.name
      modify fun b => { b with declared := (x.id, id) :: b.declared }
      return id : Build Id).Gives [] b' fun id b' => b'.declared.lookup x.id = some id := by
    have hnew : b'.declared.lookup x.id = none := hdeclared ▸ new
    have hother : ∀ k, b'.declared.lookup k ≠ some id := hdeclared ▸ other
    split
    · exact .modify_bind (.of_same rfl rfl rfl rfl rfl rfl rfl) rfl
        (register_gives (hn'.withInterface hid.mem_outer) hnew hid hother)
    · exact register_gives hn' hnew hid hother
  split
  · refine .step_bind [] (P := fun _ b' => b'.IsVariable id ∧ b'.declared = b.declared)
      (fun _ b' hadd => ?_) fun _ b' _ hn' h => hrest hn' h.1 h.2
    obtain ⟨rfl, -⟩ := add_eq_ok hadd
    refine ⟨.withDeclaration b _, hn.settleDeclaration rfl huses, .of_code rfl, ?_, rfl⟩
    exact .inr ⟨_, List.mem_append_right _ (List.mem_append_right _ (List.mem_singleton_self _)),
      rfl, rfl⟩
  · exact .define_bind hn rfl huses fun b' _ hn' hmem hdeclared =>
      hrest hn' (.inr ⟨_, List.mem_append_left _ hmem, rfl, rfl⟩) hdeclared

/-- A variable gets its id on its first use, and no other variable has it. -/
theorem variableId_gives (hn : b.Numbered []) (x : Variable) :
    (variableId x).Gives [] b fun id b' => b'.declared.lookup x.id = some id := by
  refine .get_bind ?_
  cases hknown : b.declared.lookup x.id with
  | some id => exact .pure hn hknown
  | none =>
    refine (pointerTypeId_gives hn x.ty x.qualifier.storage).bind
      fun pointer b₁ hlater₁ hn₁ ⟨hpointer, hdeclared₁⟩ => ?_
    refine .fresh_bind hn₁ fun id b₂ _ hn₂ hfront hdeclared₂ _ hid _ => ?_
    have hdeclared := hdeclared₂.trans hdeclared₁
    have hpointer₂ : pointer ∈ results b₂.front := hfront ▸ hpointer
    have new : b₂.declared.lookup x.id = none := hdeclared ▸ hknown
    have other : ∀ k, b₂.declared.lookup k ≠ some id := by
      intro k hk
      rw [hdeclared] at hk
      have hlt := (hn.bounds (.inr (mem_known_of_outer (hn.declared k id hk).mem_outer))).2
      have hle := hlater₁.nextId
      rw [hid] at hle
      omega
    split
    · refine .modify_bind (.withParameter b₂ _) rfl
        (register_gives (hn₂.settleParameter hpointer₂) new ?_ other)
      exact .inl ⟨pointer, List.mem_append_right _ (List.mem_singleton_self _)⟩
    · have hnone := place_gives x.qualifier.storage [] hn₂ hpointer₂ (List.forall_mem_nil _) new other
      cases x.initial with
      | none => exact hnone
      | some v =>
        dsimp only
        split
        · refine .step_bind _ (valueId_gives hn₂ v) fun value b₃ hlater₃ hn₃ hvalue => ?_
          refine place_gives x.qualifier.storage [value] hn₃ (hlater₃.front hpointer₂) ?_
            (hvalue.declared ▸ new) (hvalue.declared ▸ other)
          intro y hy
          rw [List.mem_singleton.mp hy]
          exact hvalue.given
        · exact hnone

end Build

end ShaderExpr
