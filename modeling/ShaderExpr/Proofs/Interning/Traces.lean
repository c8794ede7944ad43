import ShaderExpr.Proofs.Build.Assembly
import ShaderExpr.Proofs.Build.Composition
import ShaderExpr.Proofs.Build.Variables
import ShaderExpr.Proofs.Interning.Definitions

namespace ShaderExpr

open Relation

namespace Build

open Builder

variable {xs : List Variable} {allowed : Opcode → Prop} {b b' : Builder}

theorem initialIds_takes (b : Builder) (x : Variable) :
    (initialIds x).Takes DefinitionStep b fun ids b' => b'.Starts x ids := by
  unfold initialIds
  cases hv : x.initial with
  | none => exact .pure (.inl ⟨by simp [Variable.start?, hv], rfl⟩)
  | some v =>
    refine .ite (fun hstorage => ?_) fun hstorage =>
      .pure (.inl ⟨by simp [Variable.start?, hstorage], rfl⟩)
    have hstart : x.start? = some v := by simp [Variable.start?, hstorage, hv]
    exact (valueId_takes b v).bind fun id b₁ _ hid => .pure (.inr ⟨v, id, hstart, hid, rfl⟩)

/-- The tables and the names know a variable from now on. -/
def nameVariable [Limits] (x : Variable) (id : Id) : Build Id := do
  nameId id x.name
  modify fun b => { b with declared := (x.id, id) :: b.declared }
  return id

/-- Declaration of a variable of the module or of the body function. -/
def placeVariable [Limits] (x : Variable) (pointer id : Id) : Build Id := do
  let initial ← initialIds x
  add (if x.qualifier.storage = .body then .declare else .define) .var
    ([pointer, id, x.qualifier.storage.storageClass.number] ++ initial)
  registerVariable x id

theorem get_bind_apply {α : Type} {f : Builder → Build α} :
    ((get : Build Builder) >>= f) b = f b b := rfl

theorem variableId_of_known [Limits] {x : Variable} {id : Id} (known : b.declared.lookup x.id = some id) :
    variableId x b = .ok (id, b) := by
  unfold variableId
  rw [get_bind_apply, known]
  rfl

theorem variableId_of_new [Limits] {x : Variable} (new : b.declared.lookup x.id = none) :
    variableId x b = (do
      let pointer ← pointerTypeId x.ty x.qualifier.storage
      let id ← fresh
      if x.isParameter then
        modify fun b => { b with parameters := b.parameters ++ [(id, pointer)] }
        nameVariable x id
      else placeVariable x pointer id : Build Id) b := by
  unfold variableId
  rw [get_bind_apply, new]
  dsimp only
  refine congrFun (bind_congr fun pointer => bind_congr fun id => ?_) b
  refine if_congr Iff.rfl rfl ?_
  unfold placeVariable initialIds registerVariable
  cases x.initial with
  | none => rfl
  | some v =>
    by_cases hstorage : x.qualifier.storage.canInitialize
    · simp only [if_pos hstorage, bind_assoc, pure_bind]
    · simp only [if_neg hstorage]

theorem nameVariable_eq_ok {x : Variable} {id id' : Id} (h : nameVariable x id b = .ok (id', b')) :
    id' = id ∧ ∃ names, DebugNames names ∧
      b' = { b with debug := b.debug ++ names, declared := (x.id, id) :: b.declared } := by
  unfold nameVariable at h
  obtain ⟨_, b₁, hname, h⟩ := bind_eq_ok.mp h
  obtain ⟨names, hnames, hshort, rfl⟩ := nameId_eq_ok hname
  obtain ⟨rfl, rfl⟩ := Prod.mk.inj (Except.ok.inj h)
  refine ⟨rfl, names, fun i hi => ⟨?_, hshort i hi⟩, rfl⟩
  rcases hnames with rfl | rfl
  · simp at hi
  · rw [List.mem_singleton.mp hi]
    rfl

theorem placeVariable_eq_ok {x : Variable} {pointer id id' : Id}
    (h : placeVariable x pointer id b = .ok (id', b')) :
    id' = id ∧ ∃ initial b₁ names, initialIds x b = .ok (initial, b₁) ∧ DebugNames names ∧
      b' = b₁.withVariable x id pointer initial names := by
  unfold placeVariable at h
  obtain ⟨initial, b₁, hinitial, h⟩ := bind_eq_ok.mp h
  obtain ⟨_, b₂, hadd, h⟩ := bind_eq_ok.mp h
  obtain ⟨rfl, -⟩ := add_eq_ok hadd
  have hnamed {b₂ b₃ : Builder} (h : nameVariable x id b₂ = .ok (id', b₃))
      (hb₂ : ∀ names,
        { b₂ with debug := b₂.debug ++ names, declared := (x.id, id) :: b₂.declared } =
          b₁.withVariable x id pointer initial names) :
      id' = id ∧ ∃ initial' b₁' names, initialIds x b = .ok (initial', b₁') ∧ DebugNames names ∧
        b₃ = b₁'.withVariable x id pointer initial' names := by
    obtain ⟨rfl, names, hnames, rfl⟩ := nameVariable_eq_ok h
    exact ⟨rfl, initial, b₁, names, hinitial, hnames, hb₂ names⟩
  unfold registerVariable at h
  split at h
  · rename_i hlisted
    have hlisted' : x.qualifier.storage = .input ∨ x.qualifier.storage = .output := by
      simpa using hlisted
    have hbody : x.qualifier.storage ≠ .body := by
      rcases hlisted' with h | h <;> simp [h]
    obtain ⟨_, b₂, hmodify, h⟩ := bind_eq_ok.mp h
    obtain ⟨-, rfl⟩ := Prod.mk.inj (Except.ok.inj hmodify)
    refine hnamed h fun names => ?_
    simp [withVariable, declaration, append, hbody, hlisted']
  · rename_i hlisted
    have hlisted' : ¬(x.qualifier.storage = .input ∨ x.qualifier.storage = .output) := by
      simpa using hlisted
    refine hnamed h fun names => ?_
    by_cases hbody : x.qualifier.storage = .body
    · simp [withVariable, declaration, append, hbody]
    · simp [withVariable, declaration, append, hbody, hlisted']

/-- All that the first request for a variable can do. Its pointer type comes first, and then the id.
    A parameter joins the others, while any other variable is declared behind the constant that it
    starts with. -/
theorem variableId_eq_ok {x : Variable} {id : Id} (new : b.declared.lookup x.id = none)
    (h : variableId x b = .ok (id, b')) :
    ∃ pointer b₁, ReflTransGen DefinitionStep b b₁ ∧
      b₁.pointerTypes.lookup (x.ty, x.qualifier.storage.storageClass) = some pointer ∧
      b₁.nextId ≠ 0xffffffff ∧ id = b₁.nextId ∧
      ((x.isParameter ∧ ∃ names, DebugNames names ∧ b' = b₁.withNewParameter x pointer names) ∨
        (x.isParameter = false ∧ ∃ initial b₂ names,
          ReflTransGen DefinitionStep b₁.withReserved b₂ ∧ b₂.Starts x initial ∧ DebugNames names ∧
            b' = b₂.withVariable x b₁.nextId pointer initial names)) := by
  rw [variableId_of_new new] at h
  obtain ⟨pointer, b₁, hpointer, h⟩ := bind_eq_ok.mp h
  obtain ⟨hsteps, hpointer⟩ := pointerTypeId_takes b _ _ pointer b₁ hpointer
  obtain ⟨id', b₂, hfresh, h⟩ := bind_eq_ok.mp h
  obtain ⟨rfl, rfl, hmax⟩ := fresh_eq_ok hfresh
  split at h
  · rename_i hparameter
    obtain ⟨_, b₃, hmodify, h⟩ := bind_eq_ok.mp h
    obtain ⟨-, rfl⟩ := Prod.mk.inj (Except.ok.inj hmodify)
    obtain ⟨rfl, names, hnames, rfl⟩ := nameVariable_eq_ok h
    exact ⟨pointer, b₁, hsteps, hpointer, hmax, rfl, .inl ⟨hparameter, names, hnames, rfl⟩⟩
  · rename_i hparameter
    obtain ⟨rfl, initial, b₃, names, hinitial, hnames, rfl⟩ := placeVariable_eq_ok h
    obtain ⟨hinside, hstarts⟩ := initialIds_takes _ x initial b₃ hinitial
    exact ⟨pointer, b₁, hsteps, hpointer, hmax, rfl, .inr ⟨Bool.eq_false_iff.mpr hparameter,
      initial, b₃, names, hinside, hstarts, hnames, rfl⟩⟩

/-- A variable gets its id, and is declared behind the constant that it starts with, although that
    constant gets the greater id. -/
theorem variableId_takes (b : Builder) {x : Variable} (hx : x ∈ xs) :
    (variableId x).Takes (Step xs allowed) b fun id b' => b'.declared.lookup x.id = some id := by
  intro id b' h
  cases hknown : b.declared.lookup x.id with
  | some known =>
    rw [variableId_of_known hknown] at h
    obtain ⟨rfl, rfl⟩ := Prod.mk.inj (Except.ok.inj h)
    exact ⟨.refl, hknown⟩
  | none =>
    obtain ⟨pointer, b₁, hsteps, hpointer, hmax, rfl, hdeclared⟩ := variableId_eq_ok hknown h
    have hdefines : ReflTransGen (Step xs allowed) b b₁ :=
      ReflTransGen.mono (fun _ _ => .define) _ _ hsteps
    have hnew : b₁.declared.lookup x.id = none := declared_of_steps hsteps ▸ hknown
    obtain ⟨hparameter, names, hnames, rfl⟩ |
      ⟨hparameter, initial, b₂, names, hinside, hstarts, hnames, rfl⟩ := hdeclared
    · exact ⟨hdefines.tail (.parameter hx hnew hparameter hpointer hmax hnames),
        List.lookup_cons_self⟩
    · exact ⟨hdefines.tail (.declare hx hnew hparameter hpointer hmax hinside hstarts hnames),
        List.lookup_cons_self⟩

theorem valueId_steps (b : Builder) (v : Value) :
    (valueId v).Takes (Step xs allowed) b fun id b' => b'.values.lookup (v.ty, v.data) = some id :=
  (valueId_takes b v).weaken fun _ _ => .define

theorem emit_takes {op : Opcode} (permitted : allowed op) (b : Builder) (ty : Ty)
    (operands : List UInt32) : (emit op ty operands).Takes (Step xs allowed) b fun _ _ => True := by
  refine ((typeId_defines b ty).weaken fun _ _ => .define).bind fun type b₁ _ _ => ?_
  intro id b' hr
  obtain ⟨id', b₂, hfresh, hr⟩ := bind_eq_ok.mp hr
  obtain ⟨rfl, rfl, hmax⟩ := fresh_eq_ok hfresh
  obtain ⟨_, b₃, hadd, hr⟩ := bind_eq_ok.mp hr
  obtain ⟨rfl, hshort⟩ := add_eq_ok hadd
  obtain ⟨rfl, rfl⟩ := Prod.mk.inj (Except.ok.inj hr)
  exact ⟨.single (.code permitted hshort hmax), trivial⟩

theorem extendedSetId_of_known [Limits] {set : Id} (h : b.extendedSet = some set) :
    extendedSetId b = .ok (set, b) := by
  unfold extendedSetId
  rw [get_bind_apply, h]
  rfl

theorem extendedSetId_of_new [Limits] (h : b.extendedSet = none) : extendedSetId b = (do
    let id ← fresh
    modify fun b => { b with extendedSet := some id }
    return id : Build Id) b := by
  unfold extendedSetId
  rw [get_bind_apply, h]

/-- All that a request for the set of extended instructions can do. -/
theorem extendedSetId_eq_ok {set : Id} (h : extendedSetId b = .ok (set, b')) :
    b' = b ∧ b.extendedSet = some set ∨ b.extendedSet = none ∧ b.nextId ≠ 0xffffffff ∧
      b' = b.withImport ∧ set = b.nextId := by
  cases hknown : b.extendedSet with
  | some known =>
    rw [extendedSetId_of_known hknown] at h
    obtain ⟨rfl, rfl⟩ := Prod.mk.inj (Except.ok.inj h)
    exact .inl ⟨rfl, rfl⟩
  | none =>
    rw [extendedSetId_of_new hknown] at h
    obtain ⟨id, b₁, hfresh, h⟩ := bind_eq_ok.mp h
    obtain ⟨rfl, rfl, hmax⟩ := fresh_eq_ok hfresh
    obtain ⟨rfl, rfl⟩ := Prod.mk.inj (Except.ok.inj h)
    exact .inr ⟨rfl, hmax, rfl, rfl⟩

theorem emitExtended_takes (b : Builder) (ty : Ty) (number : UInt32) (operands : List UInt32) :
    (emitExtended ty number operands).Takes (Step xs allowed) b fun _ _ => True := by
  intro id b' hr
  obtain ⟨set, b₁, hset, hr⟩ := bind_eq_ok.mp hr
  obtain ⟨type, b₂, htype, hr⟩ := bind_eq_ok.mp hr
  obtain ⟨hsteps, -⟩ := typeId_takes b₁ ty type b₂ htype
  obtain ⟨id', b₃, hfresh, hr⟩ := bind_eq_ok.mp hr
  obtain ⟨rfl, rfl, hmax⟩ := fresh_eq_ok hfresh
  obtain ⟨_, b₄, hadd, hr⟩ := bind_eq_ok.mp hr
  obtain ⟨rfl, hshort⟩ := add_eq_ok hadd
  obtain ⟨rfl, rfl⟩ := Prod.mk.inj (Except.ok.inj hr)
  exact ⟨.single (.extended (extendedSetId_eq_ok hset) hsteps hshort hmax), trivial⟩

/-- A path into a variable. -/
theorem access_takes (b : Builder) (permitted : allowed .accessChain) (ty : Ty) (storage : Storage)
    (operands : List UInt32) : (do
      let type ← pointerTypeId ty storage
      let id ← fresh
      add .code .accessChain (type :: id :: operands)
      return id : Build Id).Takes (Step xs allowed) b fun _ _ => True := by
  refine ((pointerTypeId_takes b ty storage).weaken fun _ _ => .define).bind fun type b₁ _ _ => ?_
  intro id b' hr
  obtain ⟨id', b₂, hfresh, hr⟩ := bind_eq_ok.mp hr
  obtain ⟨rfl, rfl, hmax⟩ := fresh_eq_ok hfresh
  obtain ⟨_, b₃, hadd, hr⟩ := bind_eq_ok.mp hr
  obtain ⟨rfl, hshort⟩ := add_eq_ok hadd
  obtain ⟨rfl, rfl⟩ := Prod.mk.inj (Except.ok.inj hr)
  exact ⟨.single (.code permitted hshort hmax), trivial⟩

theorem store_takes (b : Builder) (operands : List UInt32) :
    (add .code .store operands).Takes (Step xs allowed) b fun _ _ => True := by
  intro _ b' hadd
  obtain ⟨rfl, hshort⟩ := add_eq_ok hadd
  exact ⟨.single (.store hshort), trivial⟩

/-- Code is built by steps, if these allow all opcodes that compute. -/
def stepping (permitted : ∀ op : Opcode, op.isComputed → allowed op) : Trait xs where
  holds r := ∀ b, r.Takes (Step xs allowed) b fun _ _ => True
  pure _ _ := .pure trivial
  throw _ _ := .throw
  bind h hf b := (h b).bind fun a b' _ _ => hf a b'
  folds h b := .get_bind (h _ b)
  emit ty operands hop b := emit_takes (permitted _ hop) b ty operands
  emitExtended ty number operands b := emitExtended_takes b ty number operands
  valueId v b := (valueId_steps b v).mono fun _ _ _ _ => trivial
  variableId _ hx b := (variableId_takes b hx).mono fun _ _ _ _ => trivial
  access ty storage operands b := access_takes b (permitted _ rfl) ty storage operands
  store operands b := store_takes b operands

end Build

end ShaderExpr
