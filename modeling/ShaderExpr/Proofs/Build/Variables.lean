import ShaderExpr.Proofs.Build.Constants

namespace ShaderExpr

open Typing

theorem Variable.Valid.allowed {x : Variable} (h : x.Valid) (casts : Bool) :
    x.ty.isAllowed casts :=
  x.ty.isAllowed_of_isProper casts h.proper

namespace Build

open Builder

variable {xs : List Variable} {casts : Bool} {b b' : Builder}

/-- What a variable starts with, as far as it is known. -/
def initialIds [Limits] (x : Variable) : Build (List Id) :=
  match x.initial with
  | some value => do
    if x.qualifier.storage.canInitialize then return [← valueId value] else return []
  | none => return []

theorem initialIds_attains (hs : b.Sound xs casts) {x : Variable} (hx : x.Valid) :
    (initialIds x).Attains xs casts b fun ids b' => SameCode b b' ∧ b'.StartsWith x ids := by
  unfold initialIds StartsWith
  cases hv : x.initial with
  | none => exact .pure hs ⟨.refl b, rfl⟩
  | some v =>
    obtain ⟨hty, hstorage⟩ := hx.initial v hv
    have hallowed : v.ty.isAllowed casts := hty ▸ hx.allowed casts
    dsimp only
    rw [if_pos hstorage]
    refine (valueId_attains hs v hallowed).bind fun value b₁ _ hs₁ ⟨hvalue, hsame⟩ => ?_
    exact .pure hs₁ ⟨hsame, value, rfl, hvalue⟩

/-- The tables know a variable from now on. -/
def registerVariable [Limits] (x : Variable) (id : Id) : Build Id := do
  if x.qualifier.storage = .input || x.qualifier.storage = .output then
    modify fun b => { b with interface := b.interface ++ [id] }
  nameId id x.name
  modify fun b => { b with declared := (x.id, id) :: b.declared }
  return id

/-- Declaration of a variable of the module under an id that was handed out for it. -/
def declareVariable (x : Variable) (pointer id : Id) : Build Id := do
  let initial ← initialIds x
  add .define .var ([pointer, id, x.qualifier.storage.storageClass.number] ++ initial)
  registerVariable x id

/-- A variable outside of functions has its id already, or else gets one behind its type. `hx`
    leaves out parameters and variables of the body function, which are not declared among the
    definitions. -/
theorem variableId_eq {x : Variable} (hx : x.qualifier.storage.storageClass ≠ .function) :
    variableId x = (do
      match (← get).declared.lookup x.id with
      | some id => return id
      | none =>
        let pointer ← pointerTypeId x.ty x.qualifier.storage
        let id ← fresh
        declareVariable x pointer id) := by
  have hparameter : ¬x.isParameter := by
    intro h
    exact hx (by rw [of_decide_eq_true h]; rfl)
  have hplace : x.qualifier.storage ≠ .body := by
    intro h
    exact hx (by rw [h]; rfl)
  unfold variableId
  refine bind_congr fun b => ?_
  cases b.declared.lookup x.id with
  | some id => rfl
  | none =>
    refine bind_congr fun pointer => bind_congr fun id => ?_
    unfold declareVariable initialIds registerVariable
    dsimp only
    rw [if_neg hparameter, if_neg hplace]
    cases x.initial with
    | none => rfl
    | some v =>
      by_cases hstorage : x.qualifier.storage.canInitialize
      · simp only [if_pos hstorage, bind_assoc, pure_bind]
      · simp only [if_neg hstorage]

theorem registerVariable_attains (hs : b.Sound xs casts) {x : Variable} (hx : x ∈ xs) {id : Id}
    (new : b.declared.lookup x.id = none) (reserved : id.toNat < b.nextId.toNat)
    (other : ∀ k, b.declared.lookup k ≠ some id) (declares : b.DeclaresVariable x id) :
    (registerVariable x id).Attains xs casts b fun id' b' => id' = id ∧ b'.DeclaresVariable x id ∧
      b'.declared = (x.id, id) :: b.declared ∧ b'.code = b.code := by
  have hrest : ∀ interface, (do
      nameId id x.name
      modify fun b => { b with declared := (x.id, id) :: b.declared }
      return id : Build Id).Attains xs casts { b with interface } fun id' b' => id' = id ∧
        b'.DeclaresVariable x id ∧ b'.declared = (x.id, id) :: b.declared ∧ b'.code = b.code := by
    intro interface
    have hs₁ : Sound xs casts { b with interface } := hs.same rfl rfl rfl rfl rfl rfl rfl rfl rfl
    refine (nameId_attains hs₁ id x.name).bind ?_
    rintro _ _ _ hs₂ ⟨debug, rfl⟩
    have hdeclares : DeclaresVariable { b with debug, interface } x id := by
      refine DeclaresVariable.mono (b := b) ?_ declares
      exact .of_same rfl rfl rfl
    have hgrows := (Grows.refl (withDebug { b with interface } debug)).withDeclared id new
    refine .modify_bind hgrows ?_
    exact .pure (hs₂.withDeclared hx reserved other hdeclares)
      ⟨rfl, hdeclares.mono hgrows.includes, rfl, rfl⟩
  unfold registerVariable
  split
  · exact .modify_bind ((Grows.refl b).same rfl rfl rfl rfl rfl rfl) (hrest _)
  · exact hrest b.interface

theorem startsWith_rule {x : Variable} (hx : x.Valid) {pointer id pointee : Id} {initial : List Id}
    (hpointee : b.types.lookup x.ty = some pointee)
    (hpointer : ⟨.typePointer, [pointer, x.qualifier.storage.storageClass.number, pointee]⟩ ∈ b.front)
    (hinitial : b.StartsWith x initial) :
    Rule b.front ⟨.var, pointer :: id :: x.qualifier.storage.storageClass.number :: initial⟩ := by
  unfold StartsWith at hinitial
  cases hv : x.initial with
  | none =>
    rw [hv] at hinitial
    subst hinitial
    exact .var hpointer (Nat.zero_le 1) (by simp)
  | some v =>
    rw [hv] at hinitial
    obtain ⟨value, rfl, hvalue⟩ := hinitial
    obtain ⟨t, ht, htype, hconstant⟩ := hvalue.constant
    rw [(hx.initial v hv).1, hpointee] at ht
    obtain rfl := Option.some.inj ht
    refine .var hpointer (Nat.le_refl 1) fun y hy => ?_
    rw [List.mem_singleton.mp hy]
    exact ⟨htype, hconstant⟩

/-- A variable that is not declared yet is declared under a new id. Its pointer type is there
    already, behind the type of the variable. -/
theorem declareVariable_attains (hs : b.Sound xs casts) {x : Variable} (hx : x ∈ xs) {pointer : Id}
    (new : b.declared.lookup x.id = none)
    (hpointer : ∃ pointee, b.types.lookup x.ty = some pointee ∧
      ⟨.typePointer, [pointer, x.qualifier.storage.storageClass.number, pointee]⟩ ∈ b.front) :
    (fresh >>= declareVariable x pointer).Attains xs casts b fun id b' =>
      b'.DeclaresVariable x id ∧ b'.declared = (x.id, id) :: b.declared ∧ b'.code = b.code := by
  have hvalid := hs.valid x hx
  intro id b' hr
  obtain ⟨id', b₁, hfresh, hr⟩ := bind_eq_ok.mp hr
  obtain ⟨rfl, rfl, hmax⟩ := fresh_eq_ok hfresh
  have hle : b.nextId.toNat ≤ (b.nextId + 1).toNat := by
    rw [toNat_add_one hmax]
    omega
  have hs₁ := hs.withId hle
  obtain ⟨initial, b₂, hinitial, hr⟩ := bind_eq_ok.mp hr
  obtain ⟨hgrows₂, hs₂, hsame, hholds⟩ := initialIds_attains hs₁ hvalid initial b₂ hinitial
  obtain ⟨_, b₃, hadd, hr⟩ := bind_eq_ok.mp hr
  obtain ⟨rfl, -⟩ := add_eq_ok hadd
  have hunused : b₂.Unused b.nextId := (hs.unused_nextId hmax).mono hgrows₂
  obtain ⟨pointee, hpointee, hdeclared⟩ := hpointer
  have hpointee₂ := hgrows₂.includes.types _ _ hpointee
  have hdeclared₂ := hgrows₂.includes.front hdeclared
  let i : Instruction :=
    ⟨.var, pointer :: b.nextId :: x.qualifier.storage.storageClass.number :: initial⟩
  have hs₃ : (b₂.withDefinition i).Sound xs casts :=
    hs₂.withDefinition hunused rfl (startsWith_rule hvalid hpointee₂ hdeclared₂ hholds)
      fun _ => floatingColumns_of_op Opcode.noConfusion
  have hgrows₃ : b.Grows (b₂.withDefinition i) :=
    (((Grows.refl b).withId hle).trans hgrows₂).withDefinition fun r hr =>
      Nat.le_of_eq (congrArg UInt32.toNat (Option.some.inj hr))
  have hother : ∀ k, b₂.declared.lookup k ≠ some b.nextId := by
    intro k hk
    rw [hsame.declared] at hk
    exact Nat.lt_irrefl _ (hs.reserved k _ hk)
  have hnew : b₂.declared.lookup x.id = none := by rw [hsame.declared, new]
  have hincludes : (b₂.withDefinition i).Includes b₂ := .withDefinition b₂ i
  have hdeclares : (b₂.withDefinition i).DeclaresVariable x b.nextId := by
    refine ⟨pointer, pointee, initial, hpointee₂, hincludes.front hdeclared₂, ?_,
      hholds.mono hincludes⟩
    exact List.mem_append_right _ (List.mem_append_right _ (List.mem_singleton_self _))
  obtain ⟨hgrows₄, hs₄, rfl, hdeclares₄, hdeclared₄, hcode₄⟩ :=
    registerVariable_attains hs₃ hx hnew hunused.reserved hother hdeclares id b' hr
  refine ⟨hgrows₃.trans hgrows₄, hs₄, hdeclares₄, ?_, hcode₄.trans hsame.code⟩
  rw [hdeclared₄]
  exact congrArg _ hsame.declared

/-- A variable is declared on its first use, with the constant that it starts with in front of it.
    -/
theorem variableId_attains (hs : b.Sound xs casts) {x : Variable} (hx : x ∈ xs) :
    (variableId x).Attains xs casts b fun id b' =>
      b'.DeclaresVariable x id ∧ b'.declared.lookup x.id = some id ∧ b'.code = b.code ∧
        (b'.declared = b.declared ∨ b'.declared = (x.id, id) :: b.declared) := by
  have hvalid := hs.valid x hx
  rw [variableId_eq hvalid.outside]
  refine .get_bind ?_
  cases hknown : b.declared.lookup x.id with
  | some id => exact .pure hs ⟨hs.declared x hx id hknown, hknown, rfl, .inl rfl⟩
  | none =>
    refine (pointerTypeId_attains hs (hvalid.allowed casts) x.qualifier.storage).bind
      fun pointer b₁ _ hs₁ ⟨hpointer, hsame⟩ => ?_
    have hnew : b₁.declared.lookup x.id = none := by rw [hsame.declared, hknown]
    refine (declareVariable_attains hs₁ hx hnew hpointer).mono
      fun id b' _ _ ⟨hdeclares, hdeclared, hcode⟩ => ?_
    refine ⟨hdeclares, ?_, hcode.trans hsame.code, .inr (hsame.declared ▸ hdeclared)⟩
    rw [hdeclared, List.lookup_cons, beq_self_eq_true]

end Build

end ShaderExpr
