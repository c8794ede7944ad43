import ShaderExpr.Proofs.Build.Modules
import ShaderExpr.Proofs.Interning.Tables
import ShaderExpr.Proofs.Layout.Parameters

namespace ShaderExpr

open Relation

namespace Build

open Builder

variable {xs : List Variable} {b b' : Builder}

/-- The instructions in front of the body function can be framed. -/
def ShortFront (b : Builder) : Prop := ∀ i ∈ b.header ++ b.debug ++ b.define, i.IsShort

/-- Steps that keep the instructions in front of the body function short. -/
def KeepsShort (b b' : Builder) : Prop := ShortFront b → ShortFront b'

theorem KeepsShort.of_same (header : b'.header = b.header) (debug : b'.debug = b.debug)
    (define : b'.define = b.define) : KeepsShort b b' := by
  intro h
  rw [ShortFront, header, debug, define]
  exact h

theorem KeepsShort.of_new {i : Instruction} (hi : i.IsShort)
    (h : ∀ j ∈ b'.header ++ b'.debug ++ b'.define, j ∈ b.header ++ b.debug ++ b.define ∨ j = i) :
    KeepsShort b b' := fun hb j hj =>
  (h j hj).elim (hb j) fun heq => heq ▸ hi

theorem KeepsShort.append (s : Section) {i : Instruction} (hi : i.IsShort) :
    KeepsShort b (b.append s i) := by
  refine .of_new hi fun j hj => ?_
  cases s <;> simp only [Builder.append, List.mem_append, List.mem_singleton] at hj ⊢ <;> tauto

theorem shortFront_of_steps (h : ReflTransGen KeepsShort b b') : KeepsShort b b' := by
  induction h with
  | refl => exact fun h => h
  | tail _ hstep ih => exact fun h => hstep (ih h)

theorem add_keepsShort (s : Section) (op : Opcode) (operands : List UInt32) :
    (add s op operands).Takes KeepsShort b fun _ _ => True := by
  intro u b' h
  obtain ⟨rfl, hshort⟩ := add_eq_ok h
  exact ⟨.single (.append s hshort), trivial⟩

theorem fresh_keepsShort : fresh.Takes KeepsShort b fun _ _ => True := by
  intro id b' h
  obtain ⟨rfl, rfl, -⟩ := fresh_eq_ok h
  exact ⟨.single (.of_same rfl rfl rfl), trivial⟩

theorem typeStep_keepsShort (h : TypeStep b b') : KeepsShort b b' := by
  cases h with
  | @type ty op operands _ _ short =>
    refine .of_new (i := ⟨op, b.nextId :: operands⟩) short fun j hj => ?_
    simp only [withNewType, List.mem_append, List.mem_singleton] at hj ⊢
    tauto
  | @name i _ short =>
    refine .of_new short fun j hj => ?_
    simp only [withName, List.mem_append, List.mem_singleton] at hj ⊢
    tauto

theorem finish_keepsShort : finish.Takes KeepsShort b fun _ _ => True := by
  have hadd {b : Builder} (s : Section) (op : Opcode) (operands : List UInt32) :=
    add_keepsShort (b := b) s op operands
  refine ((typeId_takes b .void).weaken fun _ _ => typeStep_keepsShort).bind fun void b₁ _ _ => ?_
  refine .get_bind (fresh_keepsShort.bind fun type b₂ _ _ => (hadd _ _ _).bind fun _ b₃ _ _ => ?_)
  refine fresh_keepsShort.bind fun function b₄ _ _ => fresh_keepsShort.bind fun label b₅ _ _ => ?_
  refine Takes.bind (P := fun _ _ => True) ?_ fun _ b₆ _ _ => ?_
  · exact .get_bind (.ite (fun _ => hadd _ _ _) fun _ => .pure trivial)
  refine Takes.bind (P := fun _ _ => True) ?_ fun _ b₇ _ _ => .get_bind (.pure trivial)
  refine Takes.bind (P := fun _ _ => True) ?_ fun _ b₈ _ _ => ?_
  · exact (hadd _ _ _).bind fun _ _ _ _ =>
      .get_bind (.ite (fun _ => hadd _ _ _) fun _ => .pure trivial)
  refine Takes.bind (P := fun _ _ => True) ?_ fun _ b₉ _ _ => (hadd _ _ _).bind fun _ b₁₀ _ _ => ?_
  · refine .get_bind ?_
    split
    · exact hadd _ _ _
    · exact .pure trivial
  · exact .get_bind (.ite (fun _ => (hadd _ _ _).bind fun _ _ _ _ => hadd _ _ _)
      fun _ => .pure trivial)

end Build

namespace Builder.Interned

variable {xs : List Variable} {taken : List Id} {b : Builder}

/-- A type of the table is defined as it is spelled. -/
theorem spelled (h : b.Interned xs taken) {ty : Ty} {t : Id} (ht : b.types.lookup ty = some t) :
    ∃ op operands, b.Spells ty op operands ∧ ⟨op, t :: operands⟩ ∈ b.define := by
  obtain ⟨i, hi, hmeaning⟩ | ⟨hvar, -⟩ := h.found (.type ty) t ht
  · cases hmeaning with
    | type hspelled => exact ⟨_, _, hspelled, hi⟩
  · simp [Key.isVar] at hvar

theorem scalar (h : b.Interned xs taken) {s : ScalarType} {t : Id}
    (ht : b.types.lookup (.scalar s) = some t) : s.declaration t ∈ b.define := by
  obtain ⟨op, operands, hspelled, hmem⟩ := h.spelled ht
  cases hspelled <;> exact hmem

theorem vector (h : b.Interned xs taken) {s : ScalarType} {n : Dim} {t : Id}
    (ht : b.types.lookup (.vector s n) = some t) : ∃ c, s.declaration c ∈ b.define ∧
      ⟨.typeVector, [t, c, UInt32.ofNat n.toNat]⟩ ∈ b.define := by
  obtain ⟨op, operands, hspelled, hmem⟩ := h.spelled ht
  cases hspelled with
  | vector component => exact ⟨_, h.scalar component, hmem⟩

mutual
/-- A type of the table is declared with all that it is made of. -/
theorem names (h : b.Interned xs taken) : ∀ {ty : Ty} {t : Id}, b.types.lookup ty = some t →
    Typing.Names b.define ty t
  | .void, t, ht => by
    obtain ⟨op, operands, hspelled, hmem⟩ := h.spelled ht
    cases hspelled
    exact hmem
  | .scalar s, t, ht => h.scalar ht
  | .vector s n, t, ht => h.vector ht
  | .matrix s columns rows, t, ht => by
    obtain ⟨op, operands, hspelled, hmem⟩ := h.spelled ht
    cases hspelled with
    | @matrix _ _ _ c column =>
      obtain ⟨d, hscalar, hvector⟩ := h.vector column
      exact ⟨c, d, hscalar, hvector, hmem⟩
  | .struct name members, t, ht => by
    obtain ⟨op, operands, hspelled, hmem⟩ := h.spelled ht
    cases hspelled with
    | struct made => exact ⟨operands, h.namesAll made, hmem⟩
theorem namesAll (h : b.Interned xs taken) : ∀ {members : List (String × Ty)} {ids : List Id},
    List.Forall₂ (fun m id => b.types.lookup m.2 = some id) members ids →
      Typing.NamesAll b.define members ids
  | [], ids, hmade => by
    cases hmade
    rfl
  | (name, ty) :: members, ids, hmade => by
    cases hmade with
    | cons hid hids => exact ⟨_, _, rfl, h.names hid, h.namesAll hids⟩
end

end Builder.Interned

/-- The parts of a module, in order. -/
structure Layout where
  float64 : Bool
  /-- The imported set of extended instructions. -/
  set : Option Id
  interface : List Id
  names : List Instruction
  definitions : List Instruction
  void : Id
  /-- The type of the body function. -/
  type : Id
  function : Id
  label : Id
  /-- Parameters of the body function, with their types behind them. -/
  parameters : List (Id × Id)
  locals : List Instruction
  body : List Instruction

namespace Layout

/-- The entry point and how it is run. A function with parameters is none. -/
def entry (l : Layout) (model : ExecutionModel) : List Instruction :=
  if l.parameters.isEmpty then
    [⟨.entryPoint, model.number :: l.function :: LiteralString.encode "main" ++ l.interface⟩,
      ⟨.executionMode, l.function :: model.mode⟩]
  else []

/-- Everything in front of the body function. -/
def front (l : Layout) (model : ExecutionModel) : List Instruction :=
  ⟨.capability, [1]⟩ :: (if l.float64 then [⟨.capability, [10]⟩] else []) ++
    (l.set.map fun set => ⟨.extInstImport, set :: LiteralString.encode "GLSL.std.450"⟩).toList ++
    [⟨.memoryModel, [0, 1]⟩] ++ l.entry model ++ l.names ++ l.definitions

/-- The only function. -/
def bodyFunction (l : Layout) : List Instruction :=
  ⟨.function, [l.void, l.function, 0, l.type]⟩ ::
    l.parameters.map (fun p => ⟨.functionParameter, [p.2, p.1]⟩) ++
    [⟨.label, [l.label]⟩] ++ l.locals ++ l.body ++ [⟨.ret, []⟩, ⟨.functionEnd, []⟩]

def instructions (l : Layout) (model : ExecutionModel) : List Instruction :=
  l.front model ++ l.bodyFunction

/-- The parts hold what they should, in the order that modules ask for, and the header says what is
    in them. The body function has the parameters `xs`, under the ids that `ids` has for their
    numbers. -/
structure Legal (l : Layout) (xs : List Variable) (ids : List (Nat × Id)) : Prop where
  float64 : l.float64 ↔ ∃ id, ⟨.typeFloat, [id, 64]⟩ ∈ l.definitions
  set : l.set.isSome ↔ ∃ i ∈ l.body, i.op = .extInst
  /-- Exactly the inputs and outputs that are defined, -/
  interface : l.interface = l.definitions.filterMap (·.listed?)
  /-- once each. -/
  once : l.interface.Nodup
  names : ∀ i ∈ l.names, i.op.isName
  definitions : ∀ i ∈ l.definitions, i.IsDefinition
  void : ⟨.typeVoid, [l.void]⟩ ∈ l.definitions
  type : ⟨.typeFunction, l.type :: l.void :: l.parameters.map (·.2)⟩ ∈ l.definitions
  parameters : List.Forall₂ (fun x p => ids.lookup x.id = some p.1 ∧ ∃ pointee,
    ⟨.typePointer, [p.2, StorageClass.function.number, pointee]⟩ ∈ l.definitions ∧
      Typing.Names l.definitions x.ty pointee) xs l.parameters
  locals : ∀ i ∈ l.locals, i.IsDeclaration
  body : ∀ i ∈ l.body, i.op.isBody

end Layout

theorem Instruction.filterMap_listed?_sublist (is : List Instruction) :
    (is.filterMap (·.listed?)).Sublist (results is) := by
  induction is with
  | nil => exact .slnil
  | cons i is ih =>
    by_cases hlisted : i.storageClass? = some StorageClass.input.number ∨
        i.storageClass? = some StorageClass.output.number
    · have heq : i.listed? = i.result? := if_pos hlisted
      rw [results, List.filterMap_cons, List.filterMap_cons, heq]
      cases i.result? with
      | none => exact ih
      | some id => exact ih.cons_cons id
    · have hnone : i.listed? = none := if_neg hlisted
      rw [results, List.filterMap_cons, List.filterMap_cons, hnone]
      cases i.result? with
      | none => exact ih
      | some id => exact ih.cons id

namespace Builder

variable {xs ps : List Variable} {b : Builder} {void : Id} {names : List Instruction}

/-- The parts of a module whose body function has the next ids. -/
def layout (b : Builder) (void : Id) (names : List Instruction) : Layout where
  float64 := b.usesDouble
  set := b.extendedSet
  interface := b.interface
  names := b.debug ++ names
  definitions := b.define ++ [⟨.typeFunction, b.nextId :: void :: b.parameters.map (·.2)⟩]
  void := void
  type := b.nextId
  function := b.nextId + 1
  label := b.nextId + 1 + 1
  parameters := b.parameters
  locals := b.declare
  body := b.code

/-- A module is assembled out of these parts. -/
theorem Sorted.assembled_eq (hs : b.Sorted) :
    ((b.closed void names).assembled void b.nextId (b.nextId + 1) (b.nextId + 1 + 1)).instructions =
      (b.layout void names).instructions b.options.model := by
  have himports : (b.closed void names).imports = (b.extendedSet.map fun set =>
      (⟨.extInstImport, set :: LiteralString.encode "GLSL.std.450"⟩ : Instruction)).toList := by
    change b.imports = _
    unfold imports
    cases b.extendedSet <;> rfl
  have hheading : (b.closed void names).heading (b.nextId + 1) ++ (b.debug ++ names) ++
      (b.layout void names).definitions = (b.layout void names).front b.options.model := by
    rw [heading, himports]
    rfl
  have hfunction : (b.closed void names).opening void b.nextId (b.nextId + 1) ++
      [⟨.label, [b.nextId + 1 + 1]⟩] ++ b.declare ++ b.code ++ [⟨.ret, []⟩, ⟨.functionEnd, []⟩] =
        (b.layout void names).bodyFunction := rfl
  rw [Layout.instructions, ← hheading, ← hfunction]
  simp only [assembled, Module.ofInstructions, closed, hs.bare.1, hs.bare.2, layout,
    List.nil_append, List.append_nil, List.append_assoc]

/-- In a state that building reached, the parts are legal. -/
theorem Sorted.legal (hs : b.Sorted) (hi : b.Interned xs []) (himports : b.Imports)
    (hvoid : b.types.lookup .void = some void) (hnames : ∀ i ∈ names, i.op.isName)
    (hparameters : List.Forall₂ (Build.IsArgument b) ps b.parameters) :
    (b.layout void names).Legal ps b.declared := by
  have hsub : b.define ⊆ (b.layout void names).definitions := List.subset_append_left _ _
  have hlast : ⟨.typeFunction, b.nextId :: void :: b.parameters.map (·.2)⟩ ∈
      (b.layout void names).definitions := List.mem_append_right _ (List.mem_singleton_self _)
  have hfloat (id : Id) : ⟨.typeFloat, [id, 64]⟩ ∈ (b.layout void names).definitions ↔
      ⟨.typeFloat, [id, 64]⟩ ∈ b.define := by
    simp [layout]
  have hinterface : b.interface = (b.layout void names).definitions.filterMap (·.listed?) := by
    rw [hs.interface, layout, List.filterMap_append]
    simp [Instruction.listed?_of_op]
  refine ⟨?_, himports, hinterface, ?_, fun i hi => ?_, fun i hi => ?_,
    hsub (hi.names hvoid), hlast, ?_, fun i hi => (hs.declare i hi).1, fun i hi => (hs.code i hi).1⟩
  · simp only [hfloat]
    exact hs.double
  · change b.interface.Nodup
    rw [hs.interface]
    exact (Instruction.filterMap_listed?_sublist b.define).nodup
      (hi.once.of_append_right.of_append_left.of_append_left)
  · rcases List.mem_append.mp hi with hi | hi
    · exact (hs.debug i hi).1
    · exact hnames i hi
  · rcases List.mem_append.mp hi with hi | hi
    · exact (hs.define i hi).1
    · rw [List.mem_singleton.mp hi]
      exact .inl rfl
  · refine hparameters.imp fun x p hp => ⟨hp.1, ?_⟩
    obtain ⟨i, hmem, hmeaning⟩ | ⟨hvar, -⟩ := hi.found (.pointer x.ty .function) p.2 hp.2
    · cases hmeaning with
      | pointer known => exact ⟨_, hsub hmem, (hi.names known).mono hsub⟩
    · simp [Key.isVar] at hvar

theorem Sorted.shortFront (hs : b.Sorted) : Build.ShortFront b := by
  intro i hi
  rw [hs.bare.1, List.nil_append] at hi
  rcases List.mem_append.mp hi with hi | hi
  · exact (hs.debug i hi).2
  · exact (hs.define i hi).2

/-- All instructions of a module can be framed when those in front of the body function can. -/
theorem Sorted.short_assembled (hs : b.Sorted) {type function label : Id}
    (hfront : Build.ShortFront ((b.closed void names).withHeader
      ((b.closed void names).heading function))) :
    ∀ i ∈ ((b.closed void names).assembled void type function label).instructions, i.IsShort := by
  have hopening : ∀ i ∈ (b.closed void names).opening void type function, i.IsShort := by
    intro i hi
    rcases List.mem_cons.mp hi with rfl | hi
    · simp [Instruction.IsShort, Instruction.maxWordCount]
    · obtain ⟨p, -, rfl⟩ := List.mem_map.mp hi
      simp [Instruction.IsShort, Instruction.maxWordCount]
  have hdecorate : (b.closed void names).decorate = [] := hs.bare.2
  intro i hi
  have hin := hfront i
  simp only [withHeader, List.mem_append] at hin
  simp only [assembled, Module.ofInstructions, hdecorate, List.append_nil, List.mem_append,
    List.mem_cons, List.not_mem_nil, or_false] at hi
  obtain (((((((hi | hi) | hi) | hi) | hi) | rfl) | hi) | hi) | rfl | rfl := hi
  · exact hin (.inl (.inl (.inl hi)))
  · exact hin (.inl (.inl (.inr hi)))
  · exact hin (.inl (.inr hi))
  · exact hin (.inr hi)
  · exact hopening i hi
  · simp [Instruction.IsShort, Instruction.maxWordCount]
  · exact (hs.declare i hi).2
  · exact (hs.code i hi).2
  · simp [Instruction.IsShort, Instruction.maxWordCount]
  · simp [Instruction.IsShort, Instruction.maxWordCount]

end Builder

namespace Program

open Builder

variable {p : Program} {scope : Scope} {source : String} {options : Options} {m : Module}
  {b : Builder}

/-- The state of building in front of the assembly. -/
theorem build_steps (hscope : p.scope.WellFormed)
    (htree : p.expression.WellTyped p.scope.declared) (h : p.build (.new options) = .ok (m, b)) :
    ∃ b', ReflTransGen (Step p.scope.declared (·.isComputed)) (.new options) b' ∧
      List.Forall₂ (Build.IsArgument b') (p.scope.declared.filter (·.isParameter)) b'.parameters ∧
      Build.finish b' = .ok (m, b) := by
  obtain ⟨_, b₁, hdeclare, h⟩ := Build.bind_eq_ok.mp h
  rw [Build.forIn_eq_declareParameters fun _ _ => rfl] at hdeclare
  obtain ⟨hpath₁, ps, hps, harguments⟩ := Build.declareParameters_takes (List.Subset.refl _)
    hscope.ids (fun _ _ => rfl) _ b₁ hdeclare
  obtain ⟨id, b₂, hexpr, h⟩ := Build.bind_eq_ok.mp h
  obtain ⟨hpath₂, -⟩ := Build.expr_computes htree b₁ id b₂ hexpr
  have hall : b₁.HasParameters p.scope.declared := by
    intro x hx hparameter
    obtain ⟨q, -, hq⟩ := List.exists_of_forall₂ harguments.flip x
      (List.mem_filter.mpr ⟨hx, hparameter⟩)
    exact Option.isSome_iff_exists.mpr ⟨q.1, hq.1⟩
  have hparameters : b₂.parameters = ps :=
    (same_parameters_of_steps hall hpath₂).trans hps
  refine ⟨b₂, hpath₁.trans hpath₂, ?_, h⟩
  rw [hparameters]
  exact harguments.imp fun x q hq => hq.keeps (.of_steps (fun _ _ => Step.keeps) hpath₂)

/-- Modules have the layout that is asked of them, and are read back from their words, whatever
    parameters are declared in front of the source. The scope in front is one that a caller made by
    adding parameters to the empty one. -/
theorem compile_layout (hscope : scope.Parameterized) (hparse : parseIn source scope = .ok p)
    (hcompile : p.compile options = .ok m) : Module.decode m.words = .ok m ∧
      ∃ (l : Layout) (b : Builder), p.build (.new options) = .ok (m, b) ∧
        m.instructions = l.instructions options.model ∧
        l.Legal (p.scope.declared.filter (·.isParameter)) b.declared := by
  obtain ⟨hwellFormed, htree⟩ := wellFormed_of_parseIn hscope.wellFormed hparse
  obtain ⟨b, hbuild⟩ := compile_eq_ok hcompile
  obtain ⟨b₁, hpath, harguments, hfinish⟩ := build_steps hwellFormed htree hbuild
  obtain ⟨void, b₂, names, hvoid, -, -, -, hnames, rfl, rfl⟩ := Build.finish_eq_ok hfinish
  obtain ⟨htypes, hlookup, -⟩ := Build.typeId_takes b₁ .void void b₂ hvoid
  have hdefinitions := definitions_of_types htypes
  have hpath₂ : ReflTransGen (Step p.scope.declared (·.isComputed)) (.new options) b₂ :=
    hpath.trans (ReflTransGen.mono (fun _ _ => .define) _ _ hdefinitions)
  have hsorted : b₂.Sorted := (Sorted.new options).steps (fun _ _ => Sorted.step) hpath₂
  have himports : b₂.Imports := Imports.of_steps (by simp [Imports, Builder.new]) hpath₂
  have hoptions : b₂.options = options := same_options_of_steps hpath₂
  have harguments₂ : List.Forall₂ (Build.IsArgument b₂)
      (p.scope.declared.filter (·.isParameter)) b₂.parameters := by
    rw [(same_of_definitions hdefinitions).2.1]
    exact harguments.imp fun x q hq => hq.keeps (keeps_of_definitions hdefinitions)
  have hnamed : ∀ i ∈ names, i.op.isName := by
    rcases hnames with rfl | rfl
    · simp
    · simp [Opcode.isName]
  have hfront := Build.shortFront_of_steps (Build.finish_keepsShort _ _ hfinish).1
    ((Sorted.new options).steps (fun _ _ => Sorted.step) hpath).shortFront
  refine ⟨Module.decode_words (hsorted.short_assembled hfront), b₂.layout void names, _, hbuild, ?_,
    hsorted.legal ((Interned.new _ options).run hpath₂) himports hlookup hnamed harguments₂⟩
  rw [hsorted.assembled_eq, hoptions]

/-- A vector and a number as parameters of a function that writes an output. -/
theorem compile_layout_parameters : ∃ p m,
    parseIn "out vec2 c; c = p * q"
      ((Scope.empty.addParameter "p" (.vector .float .two)).2.addParameter "q" (.scalar .int)).2 =
        .ok p ∧ p.compile {} = .ok m ∧ Module.decode m.words = .ok m ∧
      ∃ (l : Layout) (b : Builder), p.build (.new {}) = .ok (m, b) ∧
        m.instructions = l.instructions .compute ∧
        l.Legal (p.scope.declared.filter (·.isParameter)) b.declared := by
  obtain ⟨p, m, hp, hm⟩ := compileIn_eq_ok_of_isSome "out vec2 c; c = p * q"
    ((Scope.empty.addParameter "p" (.vector .float .two)).2.addParameter "q" (.scalar .int)).2 {}
    (by decide +kernel)
  exact ⟨p, m, hp, hm, compile_layout (.add (.add .empty "p" rfl) "q" rfl) hp hm⟩

end Program

end ShaderExpr
