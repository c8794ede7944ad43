import ShaderExpr.Proofs.Build.Code
import ShaderExpr.Proofs.Stores.Programs

namespace ShaderExpr

namespace Typing

variable {known : List Instruction}

mutual
/-- A type is declared under an id, and so are the types that it is made of. -/
def Names (known : List Instruction) : Ty → Id → Prop
  | .void, t => ⟨.typeVoid, [t]⟩ ∈ known
  | .scalar s, t => s.declaration t ∈ known
  | .vector s n, t => ∃ c, s.declaration c ∈ known ∧
      ⟨.typeVector, [t, c, UInt32.ofNat n.toNat]⟩ ∈ known
  | .matrix s columns rows, t => ∃ c d, s.declaration d ∈ known ∧
      ⟨.typeVector, [c, d, UInt32.ofNat rows.toNat]⟩ ∈ known ∧
      ⟨.typeMatrix, [t, c, UInt32.ofNat columns.toNat]⟩ ∈ known
  | .struct _ members, t => ∃ ids, NamesAll known members ids ∧ ⟨.typeStruct, t :: ids⟩ ∈ known
def NamesAll (known : List Instruction) : List (String × Ty) → List Id → Prop
  | [], ids => ids = []
  | (_, ty) :: rest, ids => ∃ t ts, ids = t :: ts ∧ Names known ty t ∧ NamesAll known rest ts
end

mutual
theorem Names.mono {known' : List Instruction} (hsub : known ⊆ known') : ∀ {ty : Ty} {t : Id},
    Names known ty t → Names known' ty t
  | .void, _, h | .scalar _, _, h => hsub h
  | .vector _ _, _, ⟨c, hscalar, hvector⟩ => ⟨c, hsub hscalar, hsub hvector⟩
  | .matrix _ _ _, _, ⟨c, d, hscalar, hvector, hmatrix⟩ =>
    ⟨c, d, hsub hscalar, hsub hvector, hsub hmatrix⟩
  | .struct _ _, _, ⟨ids, hids, hstruct⟩ => ⟨ids, NamesAll.mono hsub hids, hsub hstruct⟩
theorem NamesAll.mono {known' : List Instruction} (hsub : known ⊆ known') :
    ∀ {ms : List (String × Ty)} {ids : List Id}, NamesAll known ms ids → NamesAll known' ms ids
  | [], _, h => h
  | (_, _) :: _, _, ⟨t, ts, hids, ht, hts⟩ =>
    ⟨t, ts, hids, Names.mono hsub ht, NamesAll.mono hsub hts⟩
end

/-- Instructions that have no result and are always well typed can stand anywhere. -/
theorem Follows.insert {xs ys fs : List Instruction} (h : Follows known (xs ++ ys))
    (frames : ∀ i ∈ fs, i.op.isFrame ∧ i.result? = none) : Follows known (xs ++ fs ++ ys) := by
  obtain ⟨hxs, hys⟩ := follows_append.mp h
  refine follows_append.mpr ⟨follows_append.mpr ⟨hxs, ?_⟩, ?_⟩
  · clear h hxs hys
    generalize known ++ xs = known'
    induction fs generalizing known' with
    | nil => trivial
    | cons i fs ih =>
      obtain ⟨hframe, hresult⟩ := frames i List.mem_cons_self
      refine ⟨.frame hframe, by simp [hresult], ih (fun j hj => frames j ?_) _⟩
      exact List.mem_cons_of_mem i hj
  · rw [← List.append_assoc]
    refine hys.mono (List.subset_append_left _ _) fun i hi r hr j hj => ?_
    rcases List.mem_append.mp hj with hj | hj
    · exact follows_apart hys i hi r hr j hj
    · simp [(frames j hj).2]

end Typing

/-- An id is that of a value of a type of the language. -/
def Module.HasValue (m : Module) (id : Id) (ty : Ty) : Prop :=
  ∃ t, Typing.Names m.instructions ty t ∧ Typing.HasType m.instructions id t

open Typing

namespace Builder

variable {xs : List Variable} {casts : Bool} {b b' : Builder}

/-- Nothing is wrong with a state in which nothing is defined yet. -/
theorem Sound.new {s : Scope} (valid : s.Valid) (casts : Bool) (options : Options) :
    (Builder.new options).Sound s.declared casts where
  valid := valid.declared
  ids := valid.ids
  typed := trivial
  known := by simp [Builder.new, emitted, front, imports]
  floating := by simp [Builder.new, emitted, front, imports]
  types := by simp [Builder.new]
  pointers := by simp [Builder.new]
  values := by simp [Builder.new]
  declared := by simp [Builder.new]
  reserved := by simp [Builder.new]
  distinct := by simp [Builder.new]
  parameters := rfl
  declare := rfl

mutual
/-- The table of types says what is declared. -/
theorem Sound.names (hs : b.Sound xs casts) : ∀ {ty : Ty} {t : Id}, b.types.lookup ty = some t →
    Names b.front ty t
  | .void, _, ht => hs.types _ _ ht
  | .scalar _, _, ht => hs.types _ _ ht
  | .vector _ _, _, ht => by
    obtain ⟨c, -, hscalar, hvector⟩ := hs.vectorType ht
    exact ⟨c, hscalar, hvector⟩
  | .matrix _ _ _, _, ht => by
    obtain ⟨c, hc, hmatrix⟩ := hs.matrixType ht
    obtain ⟨d, -, hscalar, hvector⟩ := hs.vectorType hc
    exact ⟨c, d, hscalar, hvector, hmatrix⟩
  | .struct _ _, _, ht => by
    obtain ⟨ids, hids, hstruct, -⟩ := hs.structType ht
    exact ⟨ids, hs.namesAll hids, hstruct⟩
theorem Sound.namesAll (hs : b.Sound xs casts) : ∀ {ms : List (String × Ty)} {ids : List Id},
    List.Forall₂ (fun m id => b.types.lookup m.2 = some id) ms ids → NamesAll b.front ms ids
  | [], _, h => by
    cases h
    rfl
  | (_, _) :: _, _, h => by
    obtain _ | ⟨ht, hts⟩ := h
    exact ⟨_, _, rfl, hs.names ht, hs.namesAll hts⟩
end

/-- The body function of a module, between the definitions and the code. -/
def body (void type function label : Id) : List Instruction :=
  [⟨.typeFunction, [type, void]⟩, ⟨.function, [void, function, 0, type]⟩, ⟨.label, [label]⟩]

/-- The start of the body function is well typed behind the definitions, and the code behind it. -/
theorem Sound.follows (hs : b.Sound xs casts) {void : Id} (hvoid : ⟨.typeVoid, [void]⟩ ∈ b.front)
    (hmax : b.nextId ≠ 0xffffffff) (hmax' : b.nextId + 1 ≠ 0xffffffff) :
    Follows [] (b.front ++ body void b.nextId (b.nextId + 1) (b.nextId + 1 + 1) ++ b.code) := by
  have hfunction := toNat_add_one hmax
  have hlabel := toNat_add_one hmax'
  obtain ⟨hfront, hcode⟩ := follows_append.mp hs.typed
  rw [List.nil_append] at hcode
  -- The three ids of the body function are new, and different from each other.
  have hnew {i : Instruction} (hi : i ∈ b.emitted) {id : Id} (hid : b.nextId.toNat ≤ id.toNat) :
      i.result? ≠ some id := by
    intro hr
    have hlt := hs.known i hi id hr
    omega
  have hother {id id' : Id} (h : id.toNat < id'.toNat) : some id ≠ some id' := by
    rintro ⟨⟩
    exact Nat.lt_irrefl _ h
  have hbody : Follows b.front (body void b.nextId (b.nextId + 1) (b.nextId + 1 + 1)) := by
    refine ⟨.typeFunction hvoid, fun j hj r hr => ?_, .function (by simp), fun j hj r hr => ?_,
      .frame rfl, fun j hj r hr => ?_, trivial⟩
    · obtain rfl := Option.some.inj hr
      exact hnew (b.front_subset_emitted hj) (Nat.le_refl _)
    · obtain rfl := Option.some.inj hr
      rcases List.mem_append.mp hj with hj | hj
      · exact hnew (b.front_subset_emitted hj) (by omega)
      · rw [List.mem_singleton.mp hj]
        exact hother (by omega)
    · obtain rfl := Option.some.inj hr
      rcases List.mem_append.mp hj with hj | hj
      · rcases List.mem_append.mp hj with hj | hj
        · exact hnew (b.front_subset_emitted hj) (by omega)
        · rw [List.mem_singleton.mp hj]
          exact hother (by omega)
      · rw [List.mem_singleton.mp hj]
        exact hother (by omega)
  refine follows_append.mpr ⟨follows_append.mpr ⟨hfront, hbody⟩, ?_⟩
  rw [List.nil_append]
  refine hcode.mono (List.subset_append_left _ _) fun i hi r hr j hj => ?_
  rcases List.mem_append.mp hj with hj | hj
  · exact follows_apart hcode i hi r hr j hj
  · have hlt := hs.known i (List.mem_append_right _ hi) r hr
    simp only [body, List.mem_cons, List.not_mem_nil, or_false] at hj
    rcases hj with rfl | rfl | rfl
    · exact (hother (by omega)).symm
    · exact (hother (by omega)).symm
    · exact (hother (by omega)).symm

/-- Instructions around the body function that have no result. -/
theorem frames_of_capabilities (b : Builder) :
    ∀ i ∈ b.capabilities, i.op.isFrame ∧ i.result? = none := by
  unfold capabilities
  split <;> simp [Opcode.isFrame, Instruction.result?, Opcode.resultPosition?]

theorem frames_of_entry (b : Builder) (function : Id) :
    ∀ i ∈ b.entry function, i.op.isFrame ∧ i.result? = none := by
  unfold entry
  split <;> simp [Opcode.isFrame, Instruction.result?, Opcode.resultPosition?]

theorem frame_of_refersAhead {i : Instruction} (h : i.op.refersAhead) : i.op.isFrame := by
  obtain ⟨op, operands⟩ := i
  cases op <;> first | rfl | simp [Opcode.refersAhead] at h

/-- A module of well-typed definitions and code is well typed. -/
theorem Sound.assembled (hs : b.Sound xs casts) (hn : b.Numbered []) {void : Id}
    {names : List Instruction} {m : Module} (hvoid : ⟨.typeVoid, [void]⟩ ∈ b.front)
    (hmax : b.nextId ≠ 0xffffffff) (hmax' : b.nextId + 1 ≠ 0xffffffff)
    (hnames : names = [] ∨
      names = [⟨.debugName, (b.nextId + 1) :: LiteralString.encode Build.bodyName⟩])
    (hm : m = (b.closed void names).assembled void b.nextId (b.nextId + 1) (b.nextId + 1 + 1)) :
    m.WellTyped ∧ (casts = false → m.FloatingMatrices) ∧ b.emitted ⊆ m.instructions := by
  let frames := ⟨.memoryModel, Build.memoryModel⟩ :: b.entry (b.nextId + 1) ++ b.debug ++ names
  have hframes : ∀ i ∈ frames, i.op.isFrame ∧ i.result? = none := by
    intro i hi
    rcases List.mem_append.mp hi with hi | hi
    · rcases List.mem_append.mp hi with hi | hi
      · rcases List.mem_cons.mp hi with rfl | hi
        · exact ⟨rfl, rfl⟩
        · exact b.frames_of_entry _ i hi
      · obtain ⟨hahead, hresult, -⟩ := hn.debug i hi
        exact ⟨frame_of_refersAhead hahead, hresult⟩
    · rcases hnames with rfl | rfl
      · simp at hi
      · rw [List.mem_singleton.mp hi]
        exact ⟨rfl, rfl⟩
  have hinstructions : m.instructions = [] ++ b.capabilities ++ (b.imports ++ frames ++
      (b.define ++ body void b.nextId (b.nextId + 1) (b.nextId + 1 + 1) ++ b.code)) ++
        [⟨.ret, []⟩, ⟨.functionEnd, []⟩] ++ [] := by
    have hheading : (b.closed void names).heading (b.nextId + 1) = b.capabilities ++ b.imports ++
        [⟨.memoryModel, Build.memoryModel⟩] ++ b.entry (b.nextId + 1) := rfl
    rw [hm]
    simp only [Builder.assembled, Module.ofInstructions, hheading]
    simp only [closed, opening, body, frames, hn.bare.1, hn.bare.2, hs.parameters, hs.declare,
      List.map_nil, List.append_assoc, List.nil_append, List.append_nil, List.cons_append]
  have hfollows : Follows [] m.instructions := by
    have hbody := hs.follows hvoid hmax hmax'
    rw [front, List.append_assoc, List.append_assoc, ← List.append_assoc b.define] at hbody
    have hframed := (Follows.insert hbody hframes)
    rw [← List.nil_append (_ ++ frames ++ _)] at hframed
    have hcapabilities := Follows.insert hframed b.frames_of_capabilities
    rw [← List.append_nil (_ ++ _ ++ _)] at hcapabilities
    rw [hinstructions]
    exact Follows.insert hcapabilities (by simp [Opcode.isFrame, Instruction.result?,
      Opcode.resultPosition?])
  have hsub : b.emitted ⊆ m.instructions := by
    rw [hinstructions]
    intro i hi
    simp only [mem_emitted] at hi
    simp only [List.mem_append]
    tauto
  refine ⟨hfollows, fun hcasts t c n hmatrix u k hvector => ?_, hsub⟩
  have hmatrix' : (⟨.typeMatrix, [t, c, n]⟩ : Instruction) ∈ b.emitted := by
    rw [hinstructions] at hmatrix
    have hcapability : ⟨.typeMatrix, [t, c, n]⟩ ∉ b.capabilities := fun h =>
      Bool.false_ne_true (b.frames_of_capabilities _ h).1
    have hframe : ⟨.typeMatrix, [t, c, n]⟩ ∉ frames := fun h =>
      Bool.false_ne_true (hframes _ h).1
    simp only [List.mem_append, body, List.mem_cons, Instruction.mk.injEq, reduceCtorEq,
      List.not_mem_nil] at hmatrix
    simp only [mem_emitted]
    tauto
  obtain ⟨u', k', hvector', hscalar⟩ := hs.floating hcasts _ hmatrix' t c n rfl
  have heq := hfollows.unique hvector (hsub hvector') rfl rfl
  simp only [Instruction.mk.injEq, List.cons.injEq, true_and] at heq
  obtain ⟨rfl, -⟩ := heq
  exact hscalar.mono hsub

end Builder

namespace Build

/-- A loop over steps that do nothing does nothing. -/
theorem forIn_eq_pure {α : Type} {l : List α} {f : α → Unit → Build (ForInStep Unit)}
    (h : ∀ x ∈ l, f x () = pure (.yield ())) : forIn l () f = pure () := by
  induction l with
  | nil => rfl
  | cons x l ih =>
    rw [List.forIn_cons, h x List.mem_cons_self, pure_bind]
    exact ih fun y hy => h y (List.mem_cons_of_mem x hy)

end Build

namespace Program

open Builder

variable {p : Program} {options : Options} {m : Module} {b : Builder}

/-- The variables of a source are not parameters, so its code comes first. -/
theorem build_eq [Limits] (valid : p.scope.Valid) :
    p.build = (do
      let _ ← Build.expr p.expression
      Build.finish) := by
  have hloop : (forIn p.scope.declared () fun x _ => do
      if x.isParameter then
        let _ ← Build.variableId x
        pure (.yield ())
      else pure (.yield ()) : Build Unit) = pure () := by
    refine Build.forIn_eq_pure fun x hx => ?_
    have hparameter : ¬x.isParameter := by
      intro h
      refine (valid.declared x hx).outside ?_
      rw [of_decide_eq_true h]
      rfl
    rw [if_neg hparameter]
  unfold build
  exact congrArg (fun loop : Build Unit => loop >>= fun _ => do
    let _ ← Build.expr p.expression
    Build.finish) hloop

/-- The module of a source is well typed, and so is the value of the expression in it. -/
theorem build_typed {source : String} (hparse : parse source = .ok p)
    (hcompile : p.compile options = .ok m) :
    m.WellTyped ∧ (p.expression.castsMatrices = false → m.FloatingMatrices) ∧
      ∃ id b, Build.expr p.expression (.new options) = .ok (id, b) ∧
        m.HasValue id p.expression.ty := by
  obtain ⟨hvalid, hchecked⟩ := checked hparse
  obtain ⟨b, hbuild⟩ := compile_eq_ok hcompile
  rw [build_eq hvalid] at hbuild
  obtain ⟨id, b₁, hexpr, hfinish⟩ := Build.bind_eq_ok.mp hbuild
  obtain ⟨void, b₂, names, hvoid, hmax, hmax', -, hnames, hm, -⟩ := Build.finish_eq_ok hfinish
  obtain ⟨-, hs₁, htyped⟩ := Build.expr_attains (Sound.new hvalid _ options) hchecked
    (fun h => h) id b₁ hexpr
  obtain ⟨hgrows₂, hs₂, hlookup, -⟩ := Build.typeId_attains hs₁ .void (.inl rfl) void b₂ hvoid
  obtain ⟨-, hn₁, -, -⟩ := Build.expr_performs p.expression (Numbered.new options) id b₁ hexpr
  obtain ⟨-, hn₂, -, -⟩ := Build.typeId_gives hn₁ .void void b₂ hvoid
  obtain ⟨hwellTyped, hfloating, hsub⟩ :=
    hs₂.assembled hn₂ (hs₂.types _ _ hlookup) hmax hmax' hnames hm
  refine ⟨hwellTyped, hfloating, id, b₁, hexpr, ?_⟩
  obtain ⟨t, ht, htype⟩ := htyped.mono hgrows₂.includes
  exact ⟨t, (hs₂.names ht).mono fun i hi => hsub (b₂.front_subset_emitted hi), htype.mono hsub⟩

/-- What holds of the types of a module that a program is compiled to. Every instruction is well
    typed, and all matrices float unless the expression casts one to a type that does not. The value
    of the expression has the type of the expression, as has the value of any expression over the
    variables of the program, wherever in a sound state of building its code is put. -/
structure TypedAs (p : Program) (options : Options) (m : Module) : Prop where
  wellTyped : m.WellTyped
  floating : p.expression.castsMatrices = false → m.FloatingMatrices
  value : ∃ id b, Build.expr p.expression (.new options) = .ok (id, b) ∧
    m.HasValue id p.expression.ty
  values : ∀ e b id b', e.Checked p.scope.declared → b.Sound p.scope.declared true →
    Build.expr e b = .ok (id, b') → b'.Typed id e.ty

/-- Compiled modules are well typed, and code has the type of its expression wherever it is put. The
    one exception is part of the statement: a constructor that takes the components of a matrix and
    converts them to integers or truth values declares a matrix of these on the way. -/
theorem compile_typedAs {source : String} (hparse : parse source = .ok p)
    (hcompile : p.compile options = .ok m) : p.TypedAs options m := by
  obtain ⟨hwellTyped, hfloating, hvalue⟩ := build_typed hparse hcompile
  refine ⟨hwellTyped, hfloating, hvalue, fun e b id b' he hs hr => ?_⟩
  obtain ⟨-, -, htyped⟩ := Build.expr_attains hs he (fun _ => rfl) id b' hr
  exact htyped

theorem compile_typedAs_mix : ∃ p m,
    parse "uniform mat3 m; out vec4 c; c.zyx = mix(m * c.xyz, c.xxy, 0.5) / 2.0 + c.x;" =
      .ok p ∧ p.compile {} = .ok m ∧ p.TypedAs {} m := by
  obtain ⟨p, m, hp, hm⟩ := compile_eq_ok_of_isSome
    "uniform mat3 m; out vec4 c; c.zyx = mix(m * c.xyz, c.xxy, 0.5) / 2.0 + c.x;" {}
    (by decide +kernel)
  exact ⟨p, m, hp, hm, compile_typedAs hp hm⟩

/-- A matrix that is cast to integers becomes a matrix of integers on the way. -/
theorem compile_integerMatrix : ∃ p m, parse "mat2 m; ivec4(m)" = .ok p ∧ p.compile {} = .ok m ∧
    m.WellTyped ∧ ¬m.FloatingMatrices := by
  obtain ⟨p, m, hp, hm, hmatrix, hvector, hint⟩ : ∃ p m, parse "mat2 m; ivec4(m)" = .ok p ∧
      p.compile {} = .ok m ∧ ⟨.typeMatrix, [13, 9, 2]⟩ ∈ m.instructions ∧
        ⟨.typeVector, [9, 8, 2]⟩ ∈ m.instructions ∧ ⟨.typeInt, [8, 32, 1]⟩ ∈ m.instructions := by
    have hany : ((parse "mat2 m; ivec4(m)").toOption.bind fun p => (p.compile {}).toOption).any
        (fun m => m.instructions.contains ⟨.typeMatrix, [13, 9, 2]⟩ &&
          m.instructions.contains ⟨.typeVector, [9, 8, 2]⟩ &&
            m.instructions.contains ⟨.typeInt, [8, 32, 1]⟩) := by
      decide +kernel
    obtain ⟨p, m, hp, hm⟩ := compile_eq_ok_of_isSome "mat2 m; ivec4(m)" {}
      (Option.isSome_of_any hany)
    rw [hp, Except.toOption, Option.bind_some, hm, Except.toOption, Option.any_some] at hany
    simp only [Bool.and_eq_true, List.contains_iff_mem] at hany
    exact ⟨p, m, hp, hm, hany.1.1, hany.1.2, hany.2⟩
  obtain ⟨hwellTyped, -⟩ := build_typed hp hm
  refine ⟨p, m, hp, hm, hwellTyped, fun hfloating => ?_⟩
  obtain ⟨width, hfloat⟩ := hfloating 13 9 2 hmatrix 8 2 hvector
  have heq := Typing.Follows.unique hwellTyped hint hfloat rfl rfl
  simp at heq

end Program

end ShaderExpr
