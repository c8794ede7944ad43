import ShaderExpr.Proofs.Build.Modules
import ShaderExpr.Proofs.Running.Expressions

namespace ShaderExpr

open Builder

namespace Machine

variable {M : Machine} {is js : List Instruction} {i : Instruction} {σ σ' : State}

theorem step_of_isFrame (h : i.op.isFrame) : M.step i σ = some σ := by
  obtain ⟨op, operands⟩ := i
  cases op <;> first | rfl | simp [Opcode.isFrame] at h

theorem exec_of_idle (h : ∀ i ∈ is, M.step i σ = some σ) : M.exec is σ = some σ := by
  induction is with
  | nil => rfl
  | cons i is ih =>
    rw [← List.singleton_append, exec_append, exec_singleton, h i List.mem_cons_self]
    exact ih fun j hj => h j (List.mem_cons_of_mem i hj)

end Machine

namespace Builder

variable {M : Machine} {xs : List Variable} {casts : Bool} {b : Builder} {start : Nat → Datum}
  {φ σ : State} {void : Id} {names : List Instruction}

/-- A finished module does what its definitions and its code do. What assembly adds only frames the
    code and has no effect when it is run. -/
theorem Simulates.run_assembled (h : b.Simulates M start φ σ) (hs : b.Sound xs casts)
    (hn : b.Numbered []) (hnames : ∀ i ∈ names, i.op.isFrame) :
    M.run (b.contents start)
      ((b.closed void names).assembled void b.nextId (b.nextId + 1) (b.nextId + 1 + 1)) =
        some σ := by
  have hheading (function : Id) : ∀ i ∈ (b.closed void names).heading function, i.op.isFrame := by
    intro i hi
    rcases List.mem_append.mp hi with hi | hi
    · rcases List.mem_append.mp hi with hi | hi
      · rcases List.mem_append.mp hi with hi | hi
        · exact ((b.closed void names).frames_of_capabilities i hi).1
        · unfold imports at hi
          split at hi
          · rw [List.mem_singleton.mp hi]
            rfl
          · simp at hi
      · rw [List.mem_singleton.mp hi]
        rfl
    · exact ((b.closed void names).frames_of_entry function i hi).1
  have hdebug : ∀ i ∈ b.debug ++ names, i.op.isFrame := by
    intro i hi
    rcases List.mem_append.mp hi with hi | hi
    · exact frame_of_refersAhead (hn.debug i hi).1
    · exact hnames i hi
  have hinstructions : ((b.closed void names).assembled void b.nextId (b.nextId + 1)
      (b.nextId + 1 + 1)).instructions =
      (b.closed void names).heading (b.nextId + 1) ++ ((b.debug ++ names) ++ (b.define ++
        (body void b.nextId (b.nextId + 1) (b.nextId + 1 + 1) ++
          (b.code ++ [⟨.ret, []⟩, ⟨.functionEnd, []⟩])))) := by
    simp only [assembled, Module.ofInstructions]
    simp only [closed, opening, body, hn.bare.1, hn.bare.2, hs.parameters, hs.declare,
      List.map_nil, List.append_assoc, List.nil_append, List.append_nil, List.cons_append]
  have hbody (φ : State) :
      M.exec (body void b.nextId (b.nextId + 1) (b.nextId + 1 + 1)) φ = some φ := rfl
  have hdefined : M.exec b.define (.start (b.contents start)) = some φ := by
    have h := h.defined
    rwa [show b.inner = [] by simp [inner, parametersOf, hs.parameters, hs.declare],
      List.append_nil] at h
  rw [Machine.run, hinstructions, Machine.exec_append,
    Machine.exec_of_idle fun i hi => Machine.step_of_isFrame (hheading _ i hi), Option.bind_some,
    Machine.exec_append, Machine.exec_of_idle fun i hi => Machine.step_of_isFrame (hdebug i hi),
    Option.bind_some, Machine.exec_append, hdefined, Option.bind_some, Machine.exec_append, hbody,
    Option.bind_some, Machine.exec_append, h.run]
  rfl

end Builder

/-- What a run comes to: the value of the expression, and what each variable holds. -/
structure Outcome where
  value : Datum
  contents : List Datum

namespace Program

variable {source : String} {p : Program} {options : Options} {m : Module} {M : Machine}
  {start : Nat → Datum}

/-- What a variable holds behind a module. Variables that the module does not declare hold what they
    start with. -/
def contentsOf? (b : Builder) (start : Nat → Datum) (σ : State) (x : Variable) : Option Datum :=
  match b.declared.lookup x.id with
  | some id => σ.memory id
  | none => some (x.startDatum (start x.id))

/-- Compiles a program and runs its module, where variables hold `start` unless they are declared
    with a value. There is no outcome where the program does not compile or the run gets stuck. -/
def outcome? (p : Program) (options : Options) (M : Machine) (start : Nat → Datum) :
    Option Outcome := do
  let (id, b) ← (Build.expr p.expression (.new options)).toOption
  let m ← (p.compile options).toOption
  let σ ← M.run (b.contents start) m
  return ⟨← σ.values id, ← p.scope.declared.mapM (contentsOf? b start σ)⟩

/-- What the variables of a program hold before its expression. -/
def memory (p : Program) (start : Nat → Datum) (k : Nat) : Datum :=
  match p.scope.declared.find? (·.id = k) with
  | some x => x.startDatum (start k)
  | none => start k

theorem memory_eq (valid : p.scope.Valid) {x : Variable} (hx : x ∈ p.scope.declared)
    (start : Nat → Datum) : p.memory start x.id = x.startDatum (start x.id) := by
  cases hfind : p.scope.declared.find? (·.id = x.id) with
  | none => simpa using List.find?_eq_none.mp hfind x hx
  | some y =>
    have hid : y.id = x.id := by simpa using List.find?_some hfind
    obtain rfl : y = x :=
      List.inj_on_of_nodup_map valid.ids (List.mem_of_find?_eq_some hfind) hx hid
    rw [memory, hfind]

/-- Constants start with their values. -/
theorem constants_memory (valid : p.scope.Valid) (start : Nat → Datum) :
    Constants p.scope.declared (p.memory start) := by
  intro x hx v hv
  have hvalid := valid.declared x hx
  unfold Variable.constant? at hv
  split at hv
  · rename_i hconstant
    have hstorage := (hvalid.constant hconstant).2
    rw [memory_eq valid hx, Variable.startDatum, Variable.start?, hstorage, hv]
    rfl
  · simp at hv

/-- A run comes to what the expression means, however the program is compiled. -/
theorem outcome?_eq_some (hparse : parse source = .ok p)
    (plain : p.expression.callsBuiltin = false) (hcompile : p.compile options = .ok m)
    (M : Machine) (start : Nat → Datum) :
    let result := p.expression.eval M (p.memory start)
    p.outcome? options M start =
      some ⟨result.1, p.scope.declared.map fun x => result.2 x.id⟩ := by
  obtain ⟨hvalid, hchecked⟩ := checked hparse
  obtain ⟨b', hbuild⟩ := compile_eq_ok hcompile
  rw [build_eq hvalid] at hbuild
  obtain ⟨id, b, hexpr, hfinish⟩ := Build.bind_eq_ok.mp hbuild
  obtain ⟨void, b₁, names, hvoid, hmax, hmax', -, hnames, hm, -⟩ := Build.finish_eq_ok hfinish
  -- the expression, then what closes the module, which adds to what the code has led to
  let S : Setting := ⟨M, start, p.scope.declared⟩
  have hleads : (Builder.new options).Leads S (.start fun _ => none) (p.memory start) :=
    .new options fun x hx => memory_eq hvalid hx start
  have hsound := Sound.new hvalid true options
  obtain ⟨σ, hleads, -, hid⟩ := Build.expr_arrives (S := S) hvalid.ids hsound hchecked plain
    (constants_memory hvalid start) hleads id b hexpr
  obtain ⟨-, hs, -⟩ := Build.expr_attains hsound hchecked (fun _ => rfl) id b hexpr
  obtain ⟨-, hs₁, -⟩ := Build.typeId_attains hs .void (.inl rfl) void b₁ hvoid
  obtain ⟨-, hn, -, -⟩ := Build.expr_performs p.expression (Numbered.new options) id b hexpr
  obtain ⟨-, hn₁, -, -⟩ := Build.typeId_gives hn .void void b₁ hvoid
  obtain ⟨σ', hleads₁, hadvances, -⟩ := Build.typeId_arrives .void hleads void b₁ hvoid
  have hdeclared : b₁.declared = b.declared :=
    declared_of_steps (Build.typeId_defines b .void void b₁ hvoid).1
  have hcontents : b₁.contents start = b.contents start := by
    unfold Builder.contents
    rw [hdeclared]
  obtain ⟨φ, hφ⟩ := hleads₁.reached
  have hrun : M.run (b.contents start) m = some σ' := by
    rw [hm, ← hcontents]
    refine hφ.run_assembled hs₁ hn₁ fun i hi => ?_
    rcases hnames with rfl | rfl
    · simp at hi
    · rw [List.mem_singleton.mp hi]
      rfl
  have hall : p.scope.declared.mapM (contentsOf? b start σ') =
      some (p.scope.declared.map fun x => (p.expression.eval M (p.memory start)).2 x.id) := by
    refine Option.mapM_eq_map fun x hx => ?_
    unfold contentsOf?
    -- what is not declared is not used either, and holds what it starts with
    split
    · rename_i u hu
      exact hleads₁.declared x.id u (hdeclared ▸ hu)
    · rename_i hnone
      rw [hleads₁.waiting x hx (hdeclared ▸ hnone)]
  unfold outcome?
  simp only [hexpr, hcompile, hrun, hall, hadvances.value hid, Except.toOption, bind, Option.bind,
    pure]
  rfl

/-- Folding constants never changes what a program computes: run with the same operations and the
    same contents of the variables, the module that is compiled with constants folded and the one
    that is compiled without come to the same value of the expression, and leave the same in every
    variable. Calls of builtin functions are left out, since an instruction of a device need not
    round as evaluation does; all other operations are those of the machine. That both modules are
    there is a matter of room, which folding can make a difference to. -/
theorem compile_foldConstants (options : Options) {folded unfolded : Module}
    (hparse : parse source = .ok p) (plain : p.expression.callsBuiltin = false)
    (hfolded : p.compile { options with foldConstants := true } = .ok folded)
    (hunfolded : p.compile { options with foldConstants := false } = .ok unfolded)
    (M : Machine) (start : Nat → Datum) :
    ∃ o, p.outcome? { options with foldConstants := true } M start = some o ∧
      p.outcome? { options with foldConstants := false } M start = some o :=
  ⟨_, outcome?_eq_some hparse plain hfolded M start,
    outcome?_eq_some hparse plain hunfolded M start⟩

/-- A product of constants is folded, one with an input is not. -/
theorem compile_foldConstants_matrix : ∃ source p folded unfolded,
    source = "const mat2 m = mat2(2.0); uniform float u; out vec2 c; " ++
      "c.yx = m * vec2(3, u) + vec2(1) * m;" ∧
    parse source = .ok p ∧ p.compile { foldConstants := true } = .ok folded ∧
    p.compile { foldConstants := false } = .ok unfolded ∧
    folded.instructions.length < unfolded.instructions.length ∧
    ∀ M start, ∃ o, p.outcome? { foldConstants := true } M start = some o ∧
      p.outcome? { foldConstants := false } M start = some o := by
  generalize hsource : "const mat2 m = mat2(2.0); uniform float u; out vec2 c; " ++
    "c.yx = m * vec2(3, u) + vec2(1) * m;" = source
  have hall : (parse source).toOption.any fun p => !p.expression.callsBuiltin &&
      (p.compile { foldConstants := true }).toOption.any fun folded =>
        (p.compile { foldConstants := false }).toOption.any fun unfolded =>
          folded.instructions.length < unfolded.instructions.length := by
    subst hsource
    decide +kernel
  cases hp : parse source with
  | error => simp [hp, Except.toOption] at hall
  | ok p =>
    cases hfolded : p.compile { foldConstants := true } with
    | error => simp [hp, hfolded, Except.toOption] at hall
    | ok folded =>
      cases hunfolded : p.compile { foldConstants := false } with
      | error => simp [hp, hfolded, hunfolded, Except.toOption] at hall
      | ok unfolded =>
        obtain ⟨hplain, hfewer⟩ : p.expression.callsBuiltin = false ∧
            folded.instructions.length < unfolded.instructions.length := by
          simpa [hp, hfolded, hunfolded, Except.toOption] using hall
        exact ⟨source, p, folded, unfolded, rfl, hp, hfolded, hunfolded, hfewer,
          compile_foldConstants {} hp hplain hfolded hunfolded⟩

end Program

end ShaderExpr
