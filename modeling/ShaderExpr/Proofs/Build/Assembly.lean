import ShaderExpr.Module.Assembly
import ShaderExpr.Proofs.Build.Attains

namespace ShaderExpr

namespace Builder

def capabilities (b : Builder) : List Instruction :=
  ⟨.capability, [Build.shaderCapability]⟩ ::
    if b.usesDouble then [⟨.capability, [Build.doubleCapability]⟩] else []

/-- The entry point and how it is run, unless the body function has parameters. -/
def entry (b : Builder) (function : Id) : List Instruction :=
  if b.parameters.isEmpty then
    [⟨.entryPoint, b.options.model.number :: function ::
      LiteralString.encode Build.bodyName ++ b.interface⟩,
      ⟨.executionMode, function :: b.options.model.mode⟩]
  else []

/-- Everything in front of the names. -/
def heading (b : Builder) (function : Id) : List Instruction :=
  b.capabilities ++ b.imports ++ [⟨.memoryModel, Build.memoryModel⟩] ++ b.entry function

/-- More instructions in the header. -/
def withHeader (b : Builder) (is : List Instruction) : Builder := { b with header := b.header ++ is }

/-- The body function and its parameters. -/
def opening (b : Builder) (void type function : Id) : List Instruction :=
  ⟨.function, [void, function, 0, type]⟩ ::
    b.parameters.map (fun (id, pointer) => ⟨.functionParameter, [pointer, id]⟩)

/-- The module around the code. -/
def assembled (b : Builder) (void type function label : Id) : Module :=
  .ofInstructions b.nextId (b.header ++ b.heading function ++ b.debug ++ b.decorate ++ b.define ++
    b.opening void type function ++ [⟨.label, [label]⟩] ++ b.declare ++ b.code ++
    [⟨.ret, []⟩, ⟨.functionEnd, []⟩])

/-- Behind the definition of the type of the body function and the names of its ids. -/
def closed (b : Builder) (void : Id) (names : List Instruction) : Builder :=
  { b with
    nextId := b.nextId + 1 + 1 + 1
    define := b.define ++ [⟨.typeFunction, b.nextId :: void :: b.parameters.map (·.2)⟩]
    debug := b.debug ++ names }

end Builder

namespace Build

open Builder

variable {b b' : Builder}

/-- A name for debuggers, if the module carries names. -/
theorem eq_of_nameId [Limits] {id : Id} {name : String} {u : Unit}
    (h : nameId id name b = .ok (u, b')) :
    ∃ names, (names = [] ∨ names = [⟨.debugName, id :: LiteralString.encode name⟩]) ∧
      (Limits.words → ∀ i ∈ names, i.operands.length < Instruction.maxWordCount) ∧
      b' = { b with debug := b.debug ++ names } := by
  unfold nameId at h
  obtain ⟨b₀, b₁, hget, h⟩ := bind_eq_ok.mp h
  obtain ⟨rfl, rfl⟩ := Prod.mk.inj (Except.ok.inj hget)
  split at h
  · obtain ⟨rfl, hshort⟩ := eq_of_add h
    exact ⟨_, .inr rfl, by simpa using hshort, rfl⟩
  · obtain ⟨-, rfl⟩ := Prod.mk.inj (Except.ok.inj h)
    exact ⟨[], .inl rfl, by simp, by rw [List.append_nil]⟩

theorem nameId_eq_ok {id : Id} {name : String} {u : Unit} (h : nameId id name b = .ok (u, b')) :
    ∃ names, (names = [] ∨ names = [⟨.debugName, id :: LiteralString.encode name⟩]) ∧
      (∀ i ∈ names, i.operands.length < Instruction.maxWordCount) ∧
      b' = { b with debug := b.debug ++ names } := by
  obtain ⟨names, hnames, hshort, hb⟩ := eq_of_nameId h
  exact ⟨names, hnames, hshort rfl, hb⟩

theorem addCapabilities_eq_ok [Limits] {u : Unit} (h : addCapabilities b = .ok (u, b')) :
    b' = b.withHeader b.capabilities := by
  obtain ⟨_, b₁, hadd, h⟩ := bind_eq_ok.mp h
  obtain ⟨rfl, -⟩ := eq_of_add hadd
  obtain ⟨_, _, hget, h⟩ := bind_eq_ok.mp h
  obtain ⟨rfl, rfl⟩ := Prod.mk.inj (Except.ok.inj hget)
  rw [withHeader, capabilities]
  change (if b.usesDouble then add .header .capability [doubleCapability] else pure ()) _ = _ at h
  split at h
  · rename_i huses
    obtain ⟨rfl, -⟩ := eq_of_add h
    rw [if_pos huses]
    simp [append]
  · rename_i huses
    obtain ⟨-, rfl⟩ := Prod.mk.inj (Except.ok.inj h)
    rw [if_neg huses]
    rfl

theorem addImport_eq_ok [Limits] {u : Unit} (h : addImport b = .ok (u, b')) :
    b' = b.withHeader b.imports := by
  obtain ⟨_, _, hget, h⟩ := bind_eq_ok.mp h
  obtain ⟨rfl, rfl⟩ := Prod.mk.inj (Except.ok.inj hget)
  cases hset : b.extendedSet with
  | some set =>
    rw [hset] at h
    obtain ⟨rfl, -⟩ := eq_of_add h
    rw [imports, hset]
    rfl
  | none =>
    rw [hset] at h
    obtain ⟨-, rfl⟩ := Prod.mk.inj (Except.ok.inj h)
    rw [imports, hset, withHeader, List.append_nil]

theorem addEntryPoint_eq_ok [Limits] {function : Id} {u : Unit}
    (h : addEntryPoint function b = .ok (u, b')) :
    b' = b.withHeader (b.entry function) := by
  obtain ⟨_, _, hget, h⟩ := bind_eq_ok.mp h
  obtain ⟨rfl, rfl⟩ := Prod.mk.inj (Except.ok.inj hget)
  rw [withHeader, entry]
  split at h
  · rename_i hempty
    obtain ⟨_, b₁, hadd, h⟩ := bind_eq_ok.mp h
    obtain ⟨rfl, -⟩ := eq_of_add hadd
    obtain ⟨rfl, -⟩ := eq_of_add h
    rw [if_pos hempty]
    simp [append]
  · rename_i hempty
    obtain ⟨-, rfl⟩ := Prod.mk.inj (Except.ok.inj h)
    rw [if_neg hempty, List.append_nil]

theorem addHeader_eq_ok [Limits] {function : Id} {u : Unit}
    (h : addHeader function b = .ok (u, b')) :
    b' = b.withHeader (b.heading function) := by
  obtain ⟨_, b₁, hcapabilities, h⟩ := bind_eq_ok.mp h
  obtain rfl := addCapabilities_eq_ok hcapabilities
  obtain ⟨_, b₂, himport, h⟩ := bind_eq_ok.mp h
  obtain rfl := addImport_eq_ok himport
  obtain ⟨_, b₃, hadd, h⟩ := bind_eq_ok.mp h
  obtain ⟨rfl, -⟩ := eq_of_add hadd
  obtain rfl := addEntryPoint_eq_ok h
  simp [withHeader, heading, append, imports, entry]

/-- A finished module is assembled behind the types of the body function. Three ids are handed out
    on the way, for the type of the function, the function and its label, and only the function has
    a name. -/
theorem eq_of_finish [Limits] {m : Module} (h : finish b = .ok (m, b')) : ∃ void b₁ names,
    typeId .void b = .ok (void, b₁) ∧
      (Limits.ids → b₁.nextId ≠ 0xffffffff ∧ b₁.nextId + 1 ≠ 0xffffffff ∧
        b₁.nextId + 1 + 1 ≠ 0xffffffff) ∧
      (names = [] ∨
        names = [⟨.debugName, (b₁.nextId + 1) :: LiteralString.encode bodyName⟩]) ∧
      m = (b₁.closed void names).assembled void b₁.nextId (b₁.nextId + 1) (b₁.nextId + 1 + 1) ∧
      b' = (b₁.closed void names).withHeader
        ((b₁.closed void names).heading (b₁.nextId + 1)) := by
  unfold finish at h
  obtain ⟨void, b₁, hvoid, h⟩ := bind_eq_ok.mp h
  obtain ⟨_, _, hget, h⟩ := bind_eq_ok.mp h
  obtain ⟨rfl, rfl⟩ := Prod.mk.inj (Except.ok.inj hget)
  obtain ⟨type, b₂, htype, h⟩ := bind_eq_ok.mp h
  obtain ⟨rfl, rfl, hmax⟩ := eq_of_fresh htype
  obtain ⟨_, b₃, hadd, h⟩ := bind_eq_ok.mp h
  obtain ⟨rfl, -⟩ := eq_of_add hadd
  obtain ⟨function, b₄, hfunction, h⟩ := bind_eq_ok.mp h
  obtain ⟨rfl, rfl, hmax'⟩ := eq_of_fresh hfunction
  obtain ⟨label, b₅, hlabel, h⟩ := bind_eq_ok.mp h
  obtain ⟨rfl, rfl, hmax''⟩ := eq_of_fresh hlabel
  obtain ⟨_, b₆, hname, h⟩ := bind_eq_ok.mp h
  obtain ⟨names, hnames, -, rfl⟩ := eq_of_nameId hname
  obtain ⟨_, b₇, hheader, h⟩ := bind_eq_ok.mp h
  obtain rfl := addHeader_eq_ok hheader
  obtain ⟨_, _, hget, h⟩ := bind_eq_ok.mp h
  obtain ⟨rfl, rfl⟩ := Prod.mk.inj (Except.ok.inj hget)
  obtain ⟨rfl, rfl⟩ := Prod.mk.inj (Except.ok.inj h)
  exact ⟨void, b₁, names, hvoid, fun hids => ⟨hmax hids, hmax' hids, hmax'' hids⟩, hnames, rfl,
    rfl⟩

theorem finish_eq_ok {m : Module} (h : finish b = .ok (m, b')) : ∃ void b₁ names,
    typeId .void b = .ok (void, b₁) ∧ b₁.nextId ≠ 0xffffffff ∧ b₁.nextId + 1 ≠ 0xffffffff ∧
      b₁.nextId + 1 + 1 ≠ 0xffffffff ∧
      (names = [] ∨
        names = [⟨.debugName, (b₁.nextId + 1) :: LiteralString.encode bodyName⟩]) ∧
      m = (b₁.closed void names).assembled void b₁.nextId (b₁.nextId + 1) (b₁.nextId + 1 + 1) ∧
      b' = (b₁.closed void names).withHeader
        ((b₁.closed void names).heading (b₁.nextId + 1)) := by
  obtain ⟨void, b₁, names, hvoid, hmax, hfinished⟩ := eq_of_finish h
  obtain ⟨hmax, hmax', hmax''⟩ := hmax rfl
  exact ⟨void, b₁, names, hvoid, hmax, hmax', hmax'', hfinished⟩

end Build

end ShaderExpr
