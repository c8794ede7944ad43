import ShaderExpr.Proofs.Interning.Tables
import ShaderExpr.Proofs.Layout.Decoding
import ShaderExpr.Proofs.Layout.Lowering

namespace ShaderExpr

open Relation

/-- Opcodes of the code of a body. -/
def Opcode.isBody (op : Opcode) : Bool := op.isComputed || op = .store || op = .extInst

namespace Instruction

/-- Number of the storage class of a variable. -/
def storageClass? (i : Instruction) : Option UInt32 := if i.op = .var then i.operands[2]? else none

/-- A type, a constant, or a variable outside of the body function. -/
def IsDefinition (i : Instruction) : Prop :=
  i.op.isType ∨ i.op.isConstant ∨
    i.op = .var ∧ i.storageClass? ≠ some StorageClass.function.number

/-- A variable of the body function. -/
def IsDeclaration (i : Instruction) : Prop :=
  i.op = .var ∧ i.storageClass? = some StorageClass.function.number

/-- The id of an input or output variable, which an entry point lists. -/
def listed? (i : Instruction) : Option Id :=
  if i.storageClass? = some StorageClass.input.number ∨
      i.storageClass? = some StorageClass.output.number then i.result?
  else none

theorem listed?_of_op {i : Instruction} (h : i.op ≠ .var) : i.listed? = none := by
  simp [listed?, storageClass?, h]

end Instruction

namespace Builder

/-- Instructions are in the parts of the module that they belong to, and can be framed. Every step
    of building keeps this. -/
structure Sorted (b : Builder) : Prop where
  bare : b.header = [] ∧ b.decorate = []
  debug : ∀ i ∈ b.debug, i.op.isName ∧ i.IsShort
  define : ∀ i ∈ b.define, i.IsDefinition ∧ i.IsShort
  declare : ∀ i ∈ b.declare, i.IsDeclaration ∧ i.IsShort
  code : ∀ i ∈ b.code, i.op.isBody ∧ i.IsShort
  double : b.usesDouble ↔ ∃ id, ⟨.typeFloat, [id, 64]⟩ ∈ b.define
  interface : b.interface = b.define.filterMap (·.listed?)

/-- The set of extended instructions is known if there is one of these. -/
def Imports (b : Builder) : Prop := b.extendedSet.isSome ↔ ∃ i ∈ b.code, i.op = .extInst

variable {xs : List Variable} {b b' : Builder} {i : Instruction}

theorem declaration_isDeclaration {x : Variable} {id pointer : Id} {initial : List Id}
    (h : x.qualifier.storage = .body) : (declaration x id pointer initial).IsDeclaration :=
  ⟨rfl, by simp [Instruction.storageClass?, declaration, h, Storage.storageClass]⟩

theorem declaration_isDefinition {x : Variable} {id pointer : Id} {initial : List Id}
    (h : x.qualifier.storage ≠ .body) (inside : x.isParameter = false) :
    (declaration x id pointer initial).IsDefinition := by
  have hparameter : x.qualifier.storage ≠ .parameter := by simpa [Variable.isParameter] using inside
  refine .inr (.inr ⟨rfl, ?_⟩)
  cases hstorage : x.qualifier.storage <;>
    simp_all [Instruction.storageClass?, declaration, Storage.storageClass, StorageClass.number]

theorem listed?_declaration {x : Variable} {id pointer : Id} {initial : List Id} :
    (declaration x id pointer initial).listed? =
      if x.qualifier.storage = .input ∨ x.qualifier.storage = .output then some id else none := by
  cases hstorage : x.qualifier.storage <;>
    simp [Instruction.listed?, Instruction.storageClass?, declaration, hstorage,
      Storage.storageClass, StorageClass.number, Instruction.result?, Opcode.resultPosition?]

theorem Starts.short {x : Variable} {initial : List Id} (h : b.Starts x initial) (id pointer : Id) :
    (declaration x id pointer initial).IsShort := by
  obtain ⟨-, rfl⟩ | ⟨v, value, -, -, rfl⟩ := h <;>
    simp [Instruction.IsShort, declaration, Instruction.maxWordCount]

namespace Spells

variable {ty : Ty} {op : Opcode} {operands : List UInt32}

theorem isType (h : b.Spells ty op operands) : op.isType := by cases h <;> rfl

theorem double_iff (h : b.Spells ty op operands) :
    .typeFloat = op ∧ [64] = operands ↔ ty = .scalar .double := by
  cases h <;> simp

end Spells

theorem Fills.isConstant {ty : Ty} {data : List UInt8} {op : Opcode} {operands : List UInt32}
    (h : b.Fills ty data op operands) : op.isConstant := by
  cases h <;> rfl

namespace Sorted

theorem new (options : Options) : (Builder.new options).Sorted := by
  constructor <;> simp [Builder.new]

/-- Instructions behind those of each part. -/
theorem grow (h : b.Sorted) {names defined declared computed : List Instruction}
    (bare : b'.header = b.header ∧ b'.decorate = b.decorate)
    (debug : b'.debug = b.debug ++ names) (define : b'.define = b.define ++ defined)
    (declare : b'.declare = b.declare ++ declared) (code : b'.code = b.code ++ computed)
    (hnames : ∀ i ∈ names, i.op.isName ∧ i.IsShort)
    (hdefined : ∀ i ∈ defined, i.IsDefinition ∧ i.IsShort)
    (hdeclared : ∀ i ∈ declared, i.IsDeclaration ∧ i.IsShort)
    (hcomputed : ∀ i ∈ computed, i.op.isBody ∧ i.IsShort)
    (double : b'.usesDouble ↔ b.usesDouble ∨ ∃ id, ⟨.typeFloat, [id, 64]⟩ ∈ defined)
    (interface : b'.interface = b.interface ++ defined.filterMap (·.listed?)) : b'.Sorted := by
  have hall {old new : List Instruction} {P : Instruction → Prop} (hold : ∀ i ∈ old, P i)
      (hnew : ∀ i ∈ new, P i) : ∀ i ∈ old ++ new, P i := fun i hi =>
    (List.mem_append.mp hi).elim (hold i) (hnew i)
  refine ⟨⟨bare.1.trans h.bare.1, bare.2.trans h.bare.2⟩, debug ▸ hall h.debug hnames,
    define ▸ hall h.define hdefined, declare ▸ hall h.declare hdeclared,
    code ▸ hall h.code hcomputed, ?_, ?_⟩
  · rw [double, h.double, define]
    simp [exists_or]
  · rw [interface, h.interface, define, List.filterMap_append]

/-- One more definition, which is no variable. -/
theorem addDefinition (h : b.Sorted) (bare : b'.header = b.header ∧ b'.decorate = b.decorate)
    (debug : b'.debug = b.debug) (define : b'.define = b.define ++ [i])
    (declare : b'.declare = b.declare) (code : b'.code = b.code)
    (definition : i.op.isType ∨ i.op.isConstant) (short : i.IsShort)
    (double : b'.usesDouble ↔ b.usesDouble ∨ ∃ id, ⟨.typeFloat, [id, 64]⟩ = i)
    (interface : b'.interface = b.interface) : b'.Sorted := by
  have hop : i.op ≠ .var := by
    rintro hop
    simp [hop, Opcode.isType, Opcode.isConstant] at definition
  have hdefinition : i.IsDefinition := definition.imp_right .inl
  refine h.grow bare (debug.trans (List.append_nil _).symm) define
    (declare.trans (List.append_nil _).symm) (code.trans (List.append_nil _).symm) (by simp)
    (by simpa using ⟨hdefinition, short⟩) (by simp) (by simp) (double.trans ?_) ?_
  · simp
  · simp [interface, Instruction.listed?_of_op hop]

/-- One more instruction of the code. -/
theorem addCode (h : b.Sorted) (body : i.op.isBody) (short : i.IsShort) : (b.withCode i).Sorted :=
  h.grow ⟨rfl, rfl⟩ (List.append_nil _).symm (List.append_nil _).symm (List.append_nil _).symm rfl
    (by simp) (by simp) (by simp) (by simpa using ⟨body, short⟩) (by simp [withCode])
    (by simp [withCode])

/-- Ids that are handed out do not matter. -/
theorem reserve (h : b.Sorted) : b.withReserved.Sorted :=
  ⟨h.bare, h.debug, h.define, h.declare, h.code, h.double, h.interface⟩

theorem definesType (h : b.Sorted) (step : TypeStep b b') : b'.Sorted := by
  cases step with
  | @type ty op operands new spelled short ids =>
    refine h.addDefinition ⟨rfl, rfl⟩ rfl rfl rfl rfl (.inl spelled.isType) short ?_ rfl
    have hdouble := spelled.double_iff
    simp [withNewType, ← hdouble]
  | @name i named short =>
    exact h.grow ⟨rfl, rfl⟩ rfl (List.append_nil _).symm (List.append_nil _).symm
      (List.append_nil _).symm (by simpa using ⟨named, short⟩) (by simp) (by simp) (by simp)
      (by simp [withName]) (by simp [withName])

theorem defines (h : b.Sorted) (step : DefinitionStep b b') : b'.Sorted := by
  cases step with
  | type step => exact h.definesType step
  | pointer =>
    exact h.addDefinition ⟨rfl, rfl⟩ rfl rfl rfl rfl (.inl rfl)
      (by simp [Instruction.IsShort, Instruction.maxWordCount]) (by simp [withNewPointer]) rfl
  | @value ty data op type operands new known filled short ids =>
    refine h.addDefinition ⟨rfl, rfl⟩ rfl rfl rfl rfl (.inr filled.isConstant) short ?_ rfl
    have hop := filled.isConstant
    have hfloat : .typeFloat ≠ op := by
      rintro rfl
      simp [Opcode.isConstant] at hop
    simp [withNewValue, hfloat]

theorem steps {R : Builder → Builder → Prop} (step : ∀ b b', b.Sorted → R b b' → b'.Sorted)
    (h : b.Sorted) (path : ReflTransGen R b b') : b'.Sorted := by
  induction path with
  | refl => exact h
  | tail _ hstep ih => exact step _ _ ih hstep

/-- Every step of building puts its instructions where they belong. -/
theorem step (h : b.Sorted) (step : Step xs (·.isComputed) b b') : b'.Sorted := by
  cases step with
  | define step => exact h.defines step
  | @declare b₁ x pointer initial names known new inside typed ids path starts named =>
    have h₁ : b₁.Sorted := h.reserve.steps (fun _ _ => defines) path
    by_cases hbody : x.qualifier.storage = .body
    · have hdefine : (b₁.withVariable x b.nextId pointer initial names).define =
          b₁.define ++ [] := by
        simp [withVariable, hbody]
      have hdeclare : (b₁.withVariable x b.nextId pointer initial names).declare =
          b₁.declare ++ [declaration x b.nextId pointer initial] := by
        simp [withVariable, hbody]
      exact h₁.grow ⟨rfl, rfl⟩ rfl hdefine hdeclare (List.append_nil _).symm named (by simp)
        (by simpa using ⟨declaration_isDeclaration hbody, starts.short _ _⟩) (by simp)
        (by simp [withVariable]) (by simp [withVariable, hbody])
    · have hdefine : (b₁.withVariable x b.nextId pointer initial names).define =
          b₁.define ++ [declaration x b.nextId pointer initial] := by
        simp [withVariable, hbody]
      have hdeclare : (b₁.withVariable x b.nextId pointer initial names).declare =
          b₁.declare ++ [] := by
        simp [withVariable, hbody]
      refine h₁.grow ⟨rfl, rfl⟩ rfl hdefine hdeclare (List.append_nil _).symm named
        (by simpa using ⟨declaration_isDefinition hbody inside, starts.short _ _⟩) (by simp)
        (by simp) (by simp [withVariable, declaration]) ?_
      rw [List.filterMap_cons, listed?_declaration]
      by_cases hlisted : x.qualifier.storage = .input ∨ x.qualifier.storage = .output
      · simp [withVariable, hlisted]
      · simp [withVariable, hlisted]
  | parameter known new outside typed ids named =>
    exact h.grow ⟨rfl, rfl⟩ rfl (List.append_nil _).symm (List.append_nil _).symm
      (List.append_nil _).symm named (by simp) (by simp) (by simp) (by simp [withNewParameter])
      (by simp [withNewParameter])
  | code permitted short =>
    exact h.reserve.addCode (by simp [Opcode.isBody, permitted]) short
  | store short => exact h.addCode rfl short
  | @extended b₁ b₂ set type operands imported path short ids =>
    have h₁ : b₁.Sorted := by
      obtain ⟨rfl, -⟩ | ⟨-, -, rfl, -⟩ := imported
      · exact h
      · exact ⟨h.bare, h.debug, h.define, h.declare, h.code, h.double, h.interface⟩
    have h₂ : b₂.Sorted := h₁.steps (fun _ _ => definesType) path
    exact h₂.reserve.addCode rfl short

end Sorted

theorem TypeStep.same (h : TypeStep b b') : b'.code = b.code ∧ b'.parameters = b.parameters ∧
    b'.extendedSet = b.extendedSet ∧ b'.options = b.options := by
  cases h <;> exact ⟨rfl, rfl, rfl, rfl⟩

theorem DefinitionStep.same (h : DefinitionStep b b') : b'.code = b.code ∧
    b'.parameters = b.parameters ∧ b'.extendedSet = b.extendedSet ∧ b'.options = b.options := by
  cases h with
  | type step => exact step.same
  | pointer | value => exact ⟨rfl, rfl, rfl, rfl⟩

theorem same_of_definitions (h : ReflTransGen DefinitionStep b b') : b'.code = b.code ∧
    b'.parameters = b.parameters ∧ b'.extendedSet = b.extendedSet ∧ b'.options = b.options := by
  induction h with
  | refl => exact ⟨rfl, rfl, rfl, rfl⟩
  | tail _ hstep ih =>
    obtain ⟨hcode, hparameters, hset, hoptions⟩ := hstep.same
    exact ⟨hcode.trans ih.1, hparameters.trans ih.2.1, hset.trans ih.2.2.1, hoptions.trans ih.2.2.2⟩

theorem definitions_of_types (h : ReflTransGen TypeStep b b') : ReflTransGen DefinitionStep b b' :=
  ReflTransGen.mono (fun _ _ => .type) _ _ h

theorem Imports.of_same (h : b.Imports) (code : b'.code = b.code)
    (set : b'.extendedSet = b.extendedSet) : b'.Imports := by
  rw [Imports, code, set]
  exact h

theorem Imports.addCode (h : b.Imports) (other : i.op ≠ .extInst) : (b.withCode i).Imports := by
  rw [Imports] at h ⊢
  simpa [withCode, or_and_right, exists_or, other] using h

/-- The set of extended instructions is imported exactly when there is one of these. -/
theorem Imports.step (h : b.Imports) (step : Step xs (·.isComputed) b b') : b'.Imports := by
  cases step with
  | define step => exact h.of_same step.same.1 step.same.2.2.1
  | declare _ _ _ _ _ path =>
    obtain ⟨hcode, -, hset, -⟩ := same_of_definitions path
    exact h.of_same hcode hset
  | parameter => exact h
  | code permitted =>
    refine Imports.addCode (b := b.withReserved) h ?_
    rintro rfl
    simp [Opcode.isComputed] at permitted
  | store => exact h.addCode Opcode.noConfusion
  | @extended b₁ b₂ set type operands imported path =>
    obtain ⟨-, -, hset, -⟩ := same_of_definitions (definitions_of_types path)
    have himported : b₁.extendedSet.isSome := by
      obtain ⟨rfl, hset⟩ | ⟨-, -, rfl, -⟩ := imported
      · rw [hset]
        rfl
      · rfl
    have hafter : b₂.extendedSet.isSome := hset ▸ himported
    refine ⟨fun _ => ⟨_, List.mem_append_right _ (List.mem_singleton_self _), rfl⟩, fun _ => hafter⟩

theorem Imports.of_steps (h : b.Imports) (path : ReflTransGen (Step xs (·.isComputed)) b b') :
    b'.Imports := by
  induction path with
  | refl => exact h
  | tail _ hstep ih => exact ih.step hstep

/-- All parameters of a list are declared. -/
def HasParameters (xs : List Variable) (b : Builder) : Prop :=
  ∀ x ∈ xs, x.isParameter → (b.declared.lookup x.id).isSome

theorem HasParameters.keeps (h : b.HasParameters xs) (hkeeps : b.Keeps b') :
    b'.HasParameters xs := by
  intro x hx hparameter
  obtain ⟨id, hid⟩ := Option.isSome_iff_exists.mp (h x hx hparameter)
  exact Option.isSome_iff_exists.mpr ⟨id, hkeeps (.var x.id) id hid⟩

/-- Where all parameters are declared, none are added. -/
theorem Step.same_parameters {allowed : Opcode → Prop} (h : b.HasParameters xs)
    (step : Step xs allowed b b') : b'.parameters = b.parameters := by
  cases step with
  | define step => exact step.same.2.1
  | declare _ _ _ _ _ path => exact (same_of_definitions path).2.1
  | parameter known new outside =>
    have hdeclared := h _ known outside
    simp [new] at hdeclared
  | code | store => rfl
  | extended imported path =>
    have hpath := (same_of_definitions (definitions_of_types path)).2.1
    obtain ⟨rfl, -⟩ | ⟨-, -, rfl, -⟩ := imported
    · exact hpath
    · exact hpath

theorem same_parameters_of_steps {allowed : Opcode → Prop} (h : b.HasParameters xs)
    (path : ReflTransGen (Step xs allowed) b b') : b'.parameters = b.parameters := by
  induction path with
  | refl => rfl
  | tail hpath hstep ih =>
    exact (Step.same_parameters (h.keeps (.of_steps (fun _ _ => Step.keeps) hpath)) hstep).trans ih

/-- No step changes the options. -/
theorem Step.same_options {allowed : Opcode → Prop} (step : Step xs allowed b b') :
    b'.options = b.options := by
  cases step with
  | define step => exact step.same.2.2.2
  | declare _ _ _ _ _ path => exact (same_of_definitions path).2.2.2
  | parameter | code | store => rfl
  | extended imported path =>
    have hpath := (same_of_definitions (definitions_of_types path)).2.2.2
    obtain ⟨rfl, -⟩ | ⟨-, -, rfl, -⟩ := imported
    · exact hpath
    · exact hpath

theorem same_options_of_steps {allowed : Opcode → Prop}
    (path : ReflTransGen (Step xs allowed) b b') : b'.options = b.options := by
  induction path with
  | refl => rfl
  | tail _ hstep ih => exact hstep.same_options.trans ih

end Builder

end ShaderExpr
