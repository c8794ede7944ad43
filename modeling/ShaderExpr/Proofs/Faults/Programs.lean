import ShaderExpr.Proofs.Build.Modules
import ShaderExpr.Proofs.Faults.Expressions
import ShaderExpr.Proofs.Faults.Room

namespace ShaderExpr

namespace Program

open Build Instruction

variable {p : Program} {options : Options} {source : String} {m : Module} {b b' : Builder}

/-- Where building the module of a source fails, a limit is in the way. Nothing is asked of the
    limits: kept to none of them, building succeeds. -/
theorem build_runs [Limits] (hparse : parse source = .ok p) : p.build.Runs b := by
  obtain ⟨hvalid, hchecked⟩ := checked hparse
  rw [build_eq hvalid]
  exact (expr_runs hvalid.declared hchecked).bind fun _ _ _ => finish_runs

/-- Limits that leave the module of a source room make no difference to it. Its body function and
    the label in it get ids, but no meanings that the builder knows of, hence the two that are
    missing. -/
theorem build_agrees (hparse : parse source = .ok p) : Agrees p.build (-2) := by
  obtain ⟨hvalid, hchecked⟩ := checked hparse
  have hexpr : Agrees (expr p.expression) 0 := expr_has (T := agreeing _) hchecked.wellTyped
  exact .congr (build_eq hvalid) (hexpr.and_then fun _ => finish_agrees)

/-- The finished module has the instructions of the builder, and as many results as that has ids
    with a meaning, with those of the body function and its label. -/
theorem build_assembles (h : @build .ignored p b = .ok (m, b')) :
    (∀ s, b'.sectionOf s ⊆ m.instructions) ∧
      b'.known.length + 2 ≤ (results m.instructions).length := by
  obtain ⟨_, b₁, -, h⟩ := bind_eq_ok.mp h
  obtain ⟨id, b₂, -, h⟩ := bind_eq_ok.mp h
  exact finish_assembles h

/-- Every accepted program compiles. Kept to no limit, it becomes a module `m`, so no demand of the
    lowering is ever unmet. Kept to limits, it becomes the same module, if `m` has no instruction of
    more than 65535 words and gives fewer than `2 ^ 32 - 1` results a number of 32 bits; each of the
    two is only asked for where that limit is kept to. A compilation that fails has met a limit that
    it is kept to. -/
theorem compile_total (hparse : parse source = .ok p) (options : Options) :
    ∃ m, @compile .ignored p options = .ok m ∧ ∀ L : Limits,
      ((L.words → ∀ i ∈ m.instructions, i.wordCount ≤ maxWordCount) →
        (L.ids → (results m.instructions).length < 2 ^ 32 - 1) →
        @compile L p options = .ok m) ∧
      ∀ cause, @compile L p options = .error cause → @Fault.IsLimit L cause := by
  obtain ⟨m, b, hbuild⟩ := Runs.exists_ok (@build_runs p source (.new options) .ignored hparse)
  obtain ⟨asked, hspends, hlimits⟩ := build_agrees hparse (.new options) m b hbuild
  obtain ⟨hsections, hresults⟩ := build_assembles hbuild
  have hcompile (L : Limits) :
      @compile L p options = (@build L p (.new options)).map (·.1) := rfl
  refine ⟨m, by rw [hcompile, hbuild]; rfl, fun L => ⟨fun hwords hids => ?_, fun cause hcause => ?_⟩⟩
  · have hbuild : @build L p (.new options) = .ok (m, b) := by
      refine hlimits L (fun hL s i hi => hwords hL i (hsections s hi)) fun hL => ?_
      have hmeanings := hspends.meanings
      have hroom := hids hL
      have hstart : (Builder.new options).known.length = 0 := rfl
      have hnext : (Builder.new options).nextId.toNat = 1 := rfl
      omega
    rw [hcompile, hbuild]
    rfl
  · refine @build_runs p source (.new options) L hparse cause ?_
    rw [hcompile] at hcause
    cases hbuild : @build L p (.new options) with
    | ok result => simp [hbuild, Except.map] at hcause
    | error cause' => exact congrArg _ (Except.error.inj (hbuild ▸ hcause))

/-- Division by a matrix, components that are assigned out of order, and an operator that converts
    both operands. The limits are kept to, and the module is there. -/
theorem compile_total_division : ∃ p m,
    parse "uniform mat2 m; uniform vec2 v; out vec2 o; o.yx = ivec2(v) / 2 * (1 / m);" = .ok p ∧
      (∀ i ∈ m.instructions, i.wordCount ≤ maxWordCount) ∧
      (results m.instructions).length < 2 ^ 32 - 1 ∧ p.compile {} = .ok m := by
  have hfits : ((parse "uniform mat2 m; uniform vec2 v; out vec2 o; o.yx = ivec2(v) / 2 * (1 / m);"
      ).toOption.bind fun p => (@compile .ignored p {}).toOption).any fun m =>
        m.instructions.all (·.wordCount ≤ maxWordCount) &&
          (results m.instructions).length < 2 ^ 32 - 1 := by decide +kernel
  cases hp : parse "uniform mat2 m; uniform vec2 v; out vec2 o; o.yx = ivec2(v) / 2 * (1 / m);" with
  | error => simp [hp, Except.toOption] at hfits
  | ok p =>
    obtain ⟨m, hm, htotal⟩ := compile_total hp {}
    simp only [hp, hm, Except.toOption, Option.bind_some, Option.any_some, Bool.and_eq_true,
      List.all_eq_true, decide_eq_true_eq] at hfits
    obtain ⟨hshort, hroom⟩ := hfits
    exact ⟨p, m, rfl, hshort, hroom, (htotal .enforced).1 (fun _ => hshort) fun _ => hroom⟩

end Program

end ShaderExpr
