import ShaderExpr.Proofs.Build.Constructors

namespace ShaderExpr

open Typing

theorem Function.IsKnown.parameters_proper {f : Function} (h : f.IsKnown) :
    ∀ t ∈ f.parameters, t.isProper := by
  cases f with
  | builtin g =>
    have hall := Builtin.of_all_overloads (P := fun g => g.parameters.all Ty.isProper)
      (by decide +kernel) h
    exact List.all_eq_true.mp hall
  | constructor ty =>
    intro t ht
    obtain ⟨m, hm, rfl⟩ := List.mem_map.mp ht
    cases ty with
    | void | scalar | vector | matrix => simp [Ty.members] at hm
    | struct name members => exact Ty.isProper_of_mem h.2 m hm

/-- A scalar or vector type over a component type. -/
def Ty.isOver (ty : Ty) (s : ScalarType) : Bool := ty.lanes?.any (·.1 = s)

theorem Ty.isOver_iff {ty : Ty} {s : ScalarType} : ty.isOver s ↔ ∃ n, ty.lanes? = some (s, n) := by
  unfold isOver
  cases ty.lanes? with
  | none => simp
  | some lanes =>
    obtain ⟨u, n⟩ := lanes
    simp [eq_comm]

/-- Operands that all have the type of the result, of a kind. -/
def Kind.takes (form : Option (Kind × Nat)) (result : Ty) (types : List Ty) : Bool :=
  match form, result.lanes? with
  | some (k, count), some (s, _) => k.admits s && types = List.replicate count result
  | _, _ => false

/-- An extended instruction can be applied to operands of some types. -/
def ExtendedOp.takes (op : ExtendedOp) (result : Ty) (types : List Ty) : Bool :=
  match op, result, types with
  | .length, .scalar s, [t] => s.isFloating && t.isOver s
  | .distance, .scalar s, [t, u] => s.isFloating && t.isOver s && u = t
  | .cross, .vector s .three, [t, u] => s.isFloating && t = .vector s .three && u = t
  | op, result, types => Kind.takes op.uniform? result types

/-- An ordinary instruction of a builtin function can be applied to operands of some types. -/
def Opcode.takes (op : Opcode) (result : Ty) (types : List Ty) : Bool :=
  match op, result, types with
  | .dot, .scalar s, [.vector s' n, t] => s.isFloating && s' = s && t = .vector s n
  | .isNan, result, [t] | .isInf, result, [t] => t.isOver .float && result = t.truths
  | op, result, types => Kind.takes op.uniform? result types

namespace Build

/-- Type of a scalar argument once it is repeated. -/
def widened (width : Option Dim) (ty : Ty) : Ty :=
  match ty, width with
  | .scalar s, some n => .vector s n
  | _, _ => ty

/-- Number of components that the arguments of an overload are repeated to. -/
def widthOf (f : Signature) : Option Dim :=
  if f.builtin.isReducing then none
  else Dim.ofNat? ((f.parameters.map Ty.length).foldl max 0)

/-- The instruction of an overload takes the types of its arguments, scalars being repeated where
    they are mixed with vectors. This can be computed, and it holds for all overloads. -/
def fits (f : Signature) : Bool :=
  let types := f.parameters.map (widened (widthOf f))
  let first := f.parameters.headD .void
  match extendedOp? f.builtin (first.component?.getD .float) f.parameters.length with
  | some op => op.takes f.result types
  | none => (plainOp f.builtin first.isScalar).takes f.result types

theorem fits_of_known {f : Signature} (known : f ∈ f.builtin.overloads) : fits f :=
  Builtin.of_all_overloads (by decide +kernel) known

open Builder

variable {xs : List Variable} {casts : Bool} {b b' : Builder}

theorem forall_typed {ids : List Id} {t : Ty} {count : Nat}
    (h : List.Forall₂ b.Typed ids (List.replicate count t)) :
    ids.length = count ∧ ∀ id ∈ ids, b.Typed id t :=
  List.forall₂_replicate_iff.mp h

/-- What taking types of one kind asks for. -/
theorem takes_iff {form : Option (Kind × Nat)} {result : Ty} {types : List Ty} :
    Kind.takes form result types ↔ ∃ k s n, form = some (k, types.length) ∧
      result.lanes? = some (s, n) ∧ k.admits s ∧ types = List.replicate types.length result := by
  unfold Kind.takes
  split
  · rename_i k count s n hlanes
    rw [hlanes]
    simp only [Bool.and_eq_true, decide_eq_true_eq]
    constructor
    · rintro ⟨hk, rfl⟩
      exact ⟨k, s, n, by simp, rfl, hk, by simp⟩
    · rintro ⟨k', s', n', hform, hlanes', hk, htypes⟩
      obtain ⟨rfl, rfl⟩ := Prod.mk.inj (Option.some.inj hform)
      obtain ⟨rfl, -⟩ := Prod.mk.inj (Option.some.inj hlanes')
      exact ⟨hk, htypes⟩
  · rename_i hnone
    simp only [Bool.false_eq_true, false_iff]
    rintro ⟨k, s, n, rfl, hlanes, -⟩
    exact hnone k _ s n rfl hlanes

/-- The type of an operand is declared over the component type of the result. -/
theorem over_of_lookup (hs : b.Sound xs casts) {ty : Ty} {s : ScalarType} {t u : Id}
    (isOver : ty.isOver s) (ht : b.types.lookup (.scalar s) = some t)
    (hu : b.types.lookup ty = some u) : u = t ∨ ∃ n, ⟨.typeVector, [u, t, n]⟩ ∈ b.emitted := by
  obtain ⟨n, hlanes⟩ := Ty.isOver_iff.mp isOver
  cases ty with
  | void | matrix | struct => simp [Ty.lanes?] at hlanes
  | scalar s' =>
    obtain ⟨rfl, -⟩ := Prod.mk.inj (Option.some.inj hlanes)
    exact .inl (Option.some.inj (hu.symm.trans ht))
  | vector s' m =>
    obtain ⟨rfl, -⟩ := Prod.mk.inj (Option.some.inj hlanes)
    obtain ⟨c, hc, -, hdeclared⟩ := hs.vectorType hu
    obtain rfl := Option.some.inj (ht.symm.trans hc)
    exact .inr ⟨_, b.front_subset_emitted hdeclared⟩

theorem floating_of_lookup (hs : b.Sound xs casts) {s : ScalarType} {t : Id}
    (floating : s.isFloating) (ht : b.types.lookup (.scalar s) = some t) :
    IsScalar b.emitted .floating t := by
  have hscalar : IsScalar b.front .floating t := hs.isScalar (k := .floating) ht floating
  exact hscalar.mono b.front_subset_emitted

/-- An extended instruction is well typed on operands of types that it takes. The result type must
    be declared, since the rule refers to it by its id. -/
theorem extendedRule_of_takes (hs : b.Sound xs casts) {op : ExtendedOp} {result : Ty}
    {types : List Ty} {ids : List Id} {t : Id} (takes : op.takes result types)
    (typed : List.Forall₂ b.Typed ids types) (ht : b.types.lookup result = some t) :
    ExtendedRule b.emitted op t ids := by
  unfold ExtendedOp.takes at takes
  split at takes
  · obtain ⟨hfloating, hover⟩ := Bool.and_eq_true_iff.mp takes
    obtain _ | @⟨x, _, _, _, hx, _ | _⟩ := typed
    obtain ⟨u, hu, hx⟩ := hx
    exact .length (floating_of_lookup hs hfloating ht) (over_of_lookup hs hover ht hu) hx
  · simp only [Bool.and_eq_true, decide_eq_true_eq] at takes
    obtain ⟨⟨hfloating, hover⟩, rfl⟩ := takes
    obtain _ | @⟨x, _, _, _, hx, _ | @⟨y, _, _, _, hy, _ | _⟩⟩ := typed
    obtain ⟨u, hu, hx⟩ := hx
    exact .distance (floating_of_lookup hs hfloating ht) (over_of_lookup hs hover ht hu) hx
      (hy.hasType hu)
  · simp only [Bool.and_eq_true, decide_eq_true_eq] at takes
    obtain ⟨⟨hfloating, rfl⟩, rfl⟩ := takes
    obtain _ | @⟨x, _, _, _, hx, _ | @⟨y, _, _, _, hy, _ | _⟩⟩ := typed
    obtain ⟨c, -, hvector, hscalar⟩ := hs.floatingVector hfloating ht
    exact .cross hvector hscalar (hx.hasType ht) (hy.hasType ht)
  · obtain ⟨k, s, n, hform, hlanes, hk, htypes⟩ := takes_iff.mp takes
    rw [htypes] at typed
    obtain ⟨hlength, htyped⟩ := forall_typed typed
    rw [← hlength] at hform
    exact .uniform hform (hs.lanes ht hlanes hk) fun x hx => (htyped x hx).hasType ht

/-- An ordinary instruction is well typed on operands of types that it takes. -/
theorem emit_of_takes (hs : b.Sound xs casts) {op : Opcode} {result : Ty} {types : List Ty}
    {ids : List Id} (takes : op.takes result types) (typed : List.Forall₂ b.Typed ids types) :
    (emit op result ids).Attains xs casts b fun id b' => b'.Typed id result := by
  have htruths {op : Opcode} {t : Ty} (form : op.comparison? = some (.floating, 1))
      (takes : t.isOver .float && result = t.truths) (typed : List.Forall₂ b.Typed ids [t]) :
      (emit op result ids).Attains xs casts b fun id b' => b'.Typed id result := by
    simp only [Bool.and_eq_true, decide_eq_true_eq] at takes
    obtain ⟨hover, rfl⟩ := takes
    obtain ⟨n, hlanes⟩ := Ty.isOver_iff.mp hover
    obtain _ | @⟨x, _, _, _, hx, _ | _⟩ := typed
    exact emit_comparison hs form hlanes rfl (by simpa using hx) (List.cons_ne_nil _ _)
  unfold Opcode.takes at takes
  split at takes
  · simp only [Bool.and_eq_true, decide_eq_true_eq] at takes
    obtain ⟨⟨hfloating, rfl⟩, rfl⟩ := takes
    obtain _ | @⟨x, _, _, _, hx, _ | @⟨y, _, _, _, hy, _ | _⟩⟩ := typed
    exact emit_dot hs hfloating hx hy
  · exact htruths rfl takes typed
  · exact htruths rfl takes typed
  · obtain ⟨k, s, n, hform, hlanes, hk, htypes⟩ := takes_iff.mp takes
    rw [htypes] at typed
    obtain ⟨hlength, htyped⟩ := forall_typed typed
    rw [← hlength] at hform
    exact emit_uniform hs hform hlanes hk htyped

theorem widen_attains (hs : b.Sound xs casts) {ty : Ty} {id : Id} (width : Option Dim)
    (hid : b.Typed id ty) :
    (widen ty id width).Attains xs casts b fun id' b' => b'.Typed id' (widened width ty) := by
  cases ty with
  | void | vector | matrix | struct => exact .pure hs hid
  | scalar s =>
    cases width with
    | none => exact .pure hs hid
    | some n =>
      have hlanes : (Ty.vector s n).lanes? = some (s, n.toNat) := rfl
      exact splat_attains hs hlanes hid

/-- Arguments are widened one after the other. -/
theorem widenAll_attains (hs : b.Sound xs casts) {arguments : List Id} {parameters : List Ty}
    (width : Option Dim) (typed : List.Forall₂ b.Typed arguments parameters) :
    ((arguments.zip parameters).mapM fun (id, t) => widen t id width).Attains xs casts b
      fun ids b' => List.Forall₂ b'.Typed ids (parameters.map (widened width)) := by
  obtain ⟨hlength, htyped⟩ := List.forall₂_iff_zip.mp typed
  refine (Attains.mapM (P := fun (p : Id × Ty) id b' => b'.Typed id (widened width p.2))
    (fun _ _ _ _ hgrows hid => hid.mono hgrows.includes) hs fun p hp b₁ hgrows₁ hs₁ => ?_).mono
      fun ids b₁ _ _ hids => ?_
  · exact widen_attains hs₁ width ((htyped hp).mono hgrows₁.includes)
  · have hparameters : (arguments.zip parameters).map Prod.snd = parameters :=
      List.map_snd_zip (Nat.le_of_eq hlength.symm)
    rw [← hparameters, List.map_map, List.forall₂_map_right_iff]
    exact hids.flip

theorem builtinCall_attains (hs : b.Sound xs casts) {f : Signature} {arguments : List Id}
    (known : f ∈ f.builtin.overloads) (typed : List.Forall₂ b.Typed arguments f.parameters) :
    (builtinCall f arguments).Attains xs casts b fun id b' => b'.Typed id f.result := by
  have hfits := fits_of_known known
  refine (widenAll_attains hs (widthOf f) typed).bind fun ids b₁ _ hs₁ hids => ?_
  have hlength : ids.length = f.parameters.length := by simpa using hids.length_eq
  unfold fits at hfits
  dsimp only at hfits
  rw [← hlength] at hfits
  split at hfits
  · rename_i op hop
    dsimp only
    rw [hop]
    exact emitExtended_attains hs₁ (Ty.isAllowed_of_isProper casts (Builtin.result_proper known))
      fun b₂ t hgrows₂ hs₂ ht => extendedRule_of_takes hs₂ hfits
        (hids.imp fun _ _ hid => hid.mono hgrows₂.includes) ht
  · rename_i hop
    dsimp only
    rw [hop]
    exact emit_of_takes hs₁ hfits hids

/-- The code of a call gives a value of the type of the function. -/
theorem functionCall_attains (hs : b.Sound xs casts) {f : Function} {arguments : List Id}
    (known : f.IsKnown) (typed : List.Forall₂ b.Typed arguments f.parameters) :
    (functionCall f arguments).Attains xs casts b fun id b' => b'.Typed id f.result := by
  cases f with
  | builtin g => exact builtinCall_attains hs known typed
  | constructor ty =>
    obtain ⟨hstruct, hproper⟩ := known
    cases ty with
    | void | scalar | vector | matrix => simp [Ty.isStruct] at hstruct
    | struct name members =>
      exact emit_construct hs (Ty.isAllowed_of_isProper casts hproper) rfl typed

end Build

end ShaderExpr
