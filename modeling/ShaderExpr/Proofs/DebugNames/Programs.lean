import ShaderExpr.Proofs.DebugNames.Erasure
import ShaderExpr.Proofs.Layout.Parameters
import ShaderExpr.Proofs.Stores.Programs

namespace ShaderExpr

/-- The module without the instructions that name something. -/
def Module.withoutNames (m : Module) : Module :=
  { m with instructions := Instruction.withoutNames m.instructions }

namespace Build

open Builder Instruction

theorem addCapabilities_blind : Blind addCapabilities := by
  refine (add_blind _ _ rfl).bind fun _ => .get_bind (fun _ => rfl) fun _ => ?_
  exact .ite (add_blind _ _ rfl) (.pure ())

theorem addImport_blind : Blind addImport := by
  refine .get_bind (fun _ => rfl) fun b => ?_
  split
  · exact add_blind _ _ rfl
  · exact .pure ()

theorem addEntryPoint_blind (function : Id) : Blind (addEntryPoint function) :=
  .get_bind (fun _ => rfl) fun _ =>
    .ite ((add_blind _ _ rfl).bind fun _ => add_blind _ _ rfl) (.pure ())

theorem addHeader_blind (function : Id) : Blind (addHeader function) :=
  addCapabilities_blind.bind fun _ => addImport_blind.bind fun _ => (add_blind _ _ rfl).bind
    fun _ => addEntryPoint_blind function

theorem withoutNames_sections (b : Builder) {opening label closing : List Instruction}
    (hopening : ∀ i ∈ opening, i.op.isName = false) (hlabel : ∀ i ∈ label, i.op.isName = false)
    (hclosing : ∀ i ∈ closing, i.op.isName = false) :
    withoutNames (b.header ++ b.debug ++ b.decorate ++ b.define ++ opening ++ label ++ b.declare ++
        b.code ++ closing) =
      b.unnamed.header ++ b.unnamed.debug ++ b.unnamed.decorate ++ b.unnamed.define ++ opening ++
        label ++ b.unnamed.declare ++ b.unnamed.code ++ closing := by
  simp only [withoutNames_append, withoutNames_of_other hopening, withoutNames_of_other hlabel,
    withoutNames_of_other hclosing]
  rfl

/-- The module that a state is finished to, out of the ids of the body function and its types. Names
    are in a part of their own, so leaving them out leaves the other parts as they are. -/
theorem finished_erases (void type function label : Id) (parameters : List (Id × Id)) :
    Erases Module.withoutNames (do
      let b ← get
      let opening := ⟨.function, [void, function, 0, type]⟩ ::
        parameters.map (fun (id, pointer) => ⟨.functionParameter, [pointer, id]⟩)
      return .ofInstructions b.nextId
        (b.header ++ b.debug ++ b.decorate ++ b.define ++ opening ++ [⟨.label, [label]⟩] ++
          b.declare ++ b.code ++ [⟨.ret, []⟩, ⟨.functionEnd, []⟩])) := by
  intro b _
  refine congrArg (fun is => Except.ok (Module.ofInstructions b.nextId is, b.unnamed))
    (withoutNames_sections b (fun i hi => ?_) (by simp [Opcode.isName])
      (by simp [Opcode.isName])).symm
  obtain rfl | hi := List.mem_cons.mp hi
  · rfl
  · obtain ⟨p, -, rfl⟩ := List.mem_map.mp hi
    rfl

theorem finish_erases : Erases Module.withoutNames finish :=
  (typeId_blind .void).bind fun void => .get_bind (fun _ => rfl) fun b =>
    fresh_blind.bind fun type => (add_blind _ _ rfl).bind fun _ =>
      fresh_blind.bind fun function => fresh_blind.bind fun label =>
        (nameId_blind function bodyName).bind fun _ => (addHeader_blind function).bind fun _ =>
          finished_erases void type function label b.parameters

theorem declareParameters_blind : ∀ xs : List Variable, Blind (declareParameters xs)
  | [] => .pure ()
  | x :: xs => by
    have hrest : Blind (declareParameters xs) := declareParameters_blind xs
    rw [declareParameters]
    split
    · exact (variableId_blind x).bind fun _ => hrest
    · exact hrest

end Build

namespace Program

open Build

variable {p : Program} {source : String} {options : Options}

theorem build_erases (h : p.expression.WellTyped p.scope.declared) :
    Erases Module.withoutNames p.build := by
  unfold build
  simp only [forIn_eq_declareParameters fun _ _ => rfl]
  exact (declareParameters_blind _).bind fun _ => Erases.bind (expr_has (T := blind _) h)
    fun _ => finish_erases

/-- The module compiled with names is the one compiled without them, apart from its names: what is
    left of it without them has the same instructions under the same ids and the same bound. A name
    can be too long for an instruction, and then only the module without names is there; `hshort`
    leaves this out. -/
theorem compile_unnamed (hparse : parse source = .ok p)
    (hshort : p.compile { options with debugNames := true } ≠ .error .instructionTooLong) :
    p.compile { options with debugNames := false } =
      (p.compile { options with debugNames := true }).map Module.withoutNames := by
  have herases := build_erases (wellTyped_of_parse hparse)
    (.new { options with debugNames := true })
  unfold compile StateT.run at hshort ⊢
  have hunnamed : (Builder.new { options with debugNames := true }).unnamed =
      .new { options with debugNames := false } := rfl
  rw [hunnamed] at herases
  cases hbuild : p.build (.new { options with debugNames := true }) with
  | error e =>
    rw [hbuild] at herases hshort
    rw [herases fun heq => hshort (by rw [heq]; rfl)]
    rfl
  | ok result =>
    rw [hbuild] at herases
    rw [herases (by simp)]
    rfl

theorem compile_unnamed_struct : ∃ p m,
    parse "struct S { vec2 a; float b; } s; out vec4 c; c.zx = s.a *= 2.0;" = .ok p ∧
      p.compile { debugNames := true } = .ok m ∧
      p.compile { debugNames := false } =
        (p.compile { debugNames := true }).map Module.withoutNames := by
  obtain ⟨p, m, hp, hm⟩ := compile_eq_ok_of_isSome
    "struct S { vec2 a; float b; } s; out vec4 c; c.zx = s.a *= 2.0;" { debugNames := true }
    (by decide +kernel)
  exact ⟨p, m, hp, hm, @compile_unnamed p _ {} hp (by rw [hm]; simp)⟩

end Program

end ShaderExpr
