import ShaderExpr.Proofs.Build.Operations

namespace ShaderExpr

open Typing

namespace Ty

/-- Types of the same shape, which values are converted between. Structs are only converted to
    themselves. -/
inductive Alike : Ty → Ty → Prop
  | same (ty : Ty) : Alike ty ty
  | lanes {source target : Ty} {s s' : ScalarType} {n : Nat} (lanes : source.lanes? = some (s, n))
    (lanes' : target.lanes? = some (s', n)) : Alike source target
  | matrices (s s' : ScalarType) (columns rows : Dim) :
    Alike (.matrix s columns rows) (.matrix s' columns rows)

theorem eq_of_lanes? {ty ty' : Ty} {lanes : ScalarType × Nat} (h : ty.lanes? = some lanes)
    (h' : ty'.lanes? = some lanes) : ty = ty' := by
  have hdim {n : Dim} : n.toNat ≠ 1 := by cases n <;> simp [Dim.toNat]
  have hinj {m n : Dim} (h : m.toNat = n.toNat) : m = n := by
    cases m <;> cases n <;> first | rfl | simp [Dim.toNat] at h
  cases ty with
  | void | matrix | struct => simp [lanes?] at h
  | scalar s =>
    rw [← h'] at h
    cases ty' with
    | void | matrix | struct => simp [lanes?] at h
    | scalar s' =>
      obtain ⟨rfl, -⟩ := Prod.mk.inj (Option.some.inj h)
      rfl
    | vector s' n =>
      obtain ⟨-, hn⟩ := Prod.mk.inj (Option.some.inj h)
      exact absurd hn.symm hdim
  | vector s m =>
    rw [← h'] at h
    cases ty' with
    | void | matrix | struct => simp [lanes?] at h
    | scalar s' =>
      obtain ⟨-, hn⟩ := Prod.mk.inj (Option.some.inj h)
      exact absurd hn hdim
    | vector s' n =>
      obtain ⟨rfl, hn⟩ := Prod.mk.inj (Option.some.inj h)
      rw [hinj hn]

theorem component?_of_lanes? {ty : Ty} {s : ScalarType} {n : Nat}
    (h : ty.lanes? = some (s, n)) : ty.component? = some s := by
  cases ty with
  | void | matrix | struct => simp [lanes?] at h
  | scalar | vector =>
    obtain ⟨rfl, -⟩ := Prod.mk.inj (Option.some.inj h)
    rfl

theorem alike_withComponent {ty : Ty} (basic : ty.isBasic) (s : ScalarType) :
    Alike ty (ty.withComponent s) := by
  cases ty with
  | void | struct => simp [isBasic] at basic
  | scalar s' => exact .lanes (n := 1) rfl rfl
  | vector s' n => exact .lanes (n := n.toNat) rfl rfl
  | matrix s' columns rows => exact .matrices s' s columns rows

theorem alike_of_convertsTo {ty ty' : Ty} (h : ty.convertsTo ty') : Alike ty ty' := by
  cases ty <;> cases ty' <;> simp only [convertsTo, Bool.and_eq_true, decide_eq_true_eq,
    Bool.false_eq_true] at h
  · exact .lanes (n := 1) rfl rfl
  · obtain ⟨rfl, -⟩ := h
    exact .lanes (n := _) rfl rfl
  · obtain ⟨⟨rfl, rfl⟩, -⟩ := h
    exact .matrices _ _ _ _
  · rw [h]
    exact .same _

end Ty

namespace Build

open Builder

variable {xs : List Variable} {casts : Bool} {b b' : Builder}

/-- Values of one type, one after the other. Each is built in a state that those in front of it have
    grown. -/
theorem mapM_typed {α : Type} {l : List α} {f : α → Build Id} {t : Ty} (hs : b.Sound xs casts)
    (h : ∀ x ∈ l, ∀ b', b.Grows b' → b'.Sound xs casts →
      (f x).Attains xs casts b' fun id b'' => b''.Typed id t) :
    (l.mapM f).Attains xs casts b fun ids b' =>
      List.Forall₂ b'.Typed ids (List.replicate l.length t) := by
  refine (Attains.mapM (P := fun _ id b' => b'.Typed id t)
    (fun _ _ _ _ hgrows hid => hid.mono hgrows.includes) hs h).mono fun ids b' _ _ hids => ?_
  rw [hids.length_eq]
  refine List.forall₂_replicate fun id hid => ?_
  obtain ⟨_, _, hid⟩ := List.exists_of_forall₂ hids id hid
  exact hid

theorem splat_attains (hs : b.Sound xs casts) {s : ScalarType} {ty : Ty} {n : Nat} {x : Id}
    (lanes : ty.lanes? = some (s, n)) (hx : b.Typed x (.scalar s)) :
    (splat x ty).Attains xs casts b fun id b' => b'.Typed id ty := by
  cases ty with
  | void | matrix | struct => simp [Ty.lanes?] at lanes
  | scalar s' =>
    obtain ⟨rfl, -⟩ := Prod.mk.inj (Option.some.inj lanes)
    exact .pure hs hx
  | vector s' m =>
    obtain ⟨rfl, -⟩ := Prod.mk.inj (Option.some.inj lanes)
    refine emit_construct hs rfl rfl ?_
    have hparts := List.forall₂_replicate (R := b.Typed) (l := List.replicate m.toNat x)
      (b := .scalar s') fun id hid => List.eq_of_mem_replicate hid ▸ hx
    rw [List.length_replicate] at hparts
    exact hparts

theorem zeroId_typed (hs : b.Sound xs casts) {ty : Ty} (hty : ty.isAllowed casts) :
    (zeroId ty).Attains xs casts b fun id b' => b'.Typed id ty :=
  (zeroId_attains hs hty).mono fun _ _ _ _ h => h.1.typed

/-- A column of a matrix. -/
theorem emit_column (hs : b.Sound xs casts) {s : ScalarType} {columns rows : Dim} {x : Id} {i : Nat}
    (hi : i < columns.toNat) (hx : b.Typed x (.matrix s columns rows)) :
    (emit .compositeExtract (.vector s rows) [x, UInt32.ofNat i]).Attains xs casts b
      fun id b' => b'.Typed id (.vector s rows) := by
  have hbounds := columns.toNat_bounds
  rw [show [x, UInt32.ofNat i] = x :: [i].map UInt32.ofNat from rfl]
  refine emit_extract hs rfl ?_ ?_ hx
  · intro j hj
    rw [List.mem_singleton.mp hj]
    omega
  · simp [Ty.at?, Ty.partTypes, hi]

/-- All components at once are converted between different component types. Source and target are a
    scalar or a vector of the same size, as `lanes` and `lanes'` say. -/
theorem convertComponents_attains (hs : b.Sound xs casts) {source target : Ty} {s s' : ScalarType}
    {n : Nat} {x : Id} (lanes : source.lanes? = some (s, n))
    (lanes' : target.lanes? = some (s', n)) (hx : b.Typed x source) :
    (convertComponents x source target).Attains xs casts b fun id b' => b'.Typed id target := by
  have hallowed := Ty.isAllowed_of_lanes? lanes casts
  have hallowed' := Ty.isAllowed_of_lanes? lanes' casts
  have hconversion (op : Opcode) {k k' : Kind} (form : op.conversion? = some (k, k'))
      (kind : k.admits s) (kind' : k'.admits s') (different : s ≠ s') :=
    emit_conversion hs form lanes lanes' kind kind' different hx
  have hcomparison (op : Opcode) (h : s' = .bool) {k : Kind} (form : op.comparison? = some (k, 2))
      (kind : k.admits s) : (do
        let zero ← zeroId source
        emit op target [x, zero]).Attains xs casts b fun id b' => b'.Typed id target := by
    obtain rfl : target = source.truths := Ty.eq_of_lanes? lanes' (h ▸ Ty.lanes?_truths lanes)
    refine (zeroId_typed hs hallowed).bind fun zero b₁ hgrows₁ hs₁ hzero => ?_
    refine emit_comparison hs₁ form lanes kind ?_ (List.cons_ne_nil _ _)
    simpa using ⟨hx.mono hgrows₁.includes, hzero⟩
  have h64 : (32 : UInt32) ≠ 64 := by decide
  unfold convertComponents
  rw [Ty.component?_of_lanes? lanes, Ty.component?_of_lanes? lanes']
  cases s with
  | bool =>
    refine (oneId_attains hs hallowed').bind fun one b₁ hgrows₁ hs₁ hone => ?_
    refine (zeroId_typed hs₁ hallowed').bind fun zero b₂ hgrows₂ hs₂ hzero => ?_
    have hsource : source = target.truths := Ty.eq_of_lanes? lanes (Ty.lanes?_truths lanes')
    exact emit_select hs₂ lanes' (hsource ▸ hx.mono (hgrows₁.trans hgrows₂).includes)
      (hone.mono hgrows₂.includes) hzero
  | float =>
    cases s' with
    | float => exact .throw
    | double =>
      exact emit_fConvert hs lanes lanes' (show (Kind.float 32).admits .float from rfl)
        (show (Kind.float 64).admits .double from rfl) h64 hx
    | int => exact hconversion .convertFToS rfl rfl rfl ScalarType.noConfusion
    | uint => exact hconversion .convertFToU rfl rfl rfl ScalarType.noConfusion
    | bool => exact hcomparison .fUnordNotEqual rfl rfl rfl
  | double =>
    cases s' with
    | float =>
      exact emit_fConvert hs lanes lanes' (show (Kind.float 64).admits .double from rfl)
        (show (Kind.float 32).admits .float from rfl) h64.symm hx
    | double => exact .throw
    | int => exact hconversion .convertFToS rfl rfl rfl ScalarType.noConfusion
    | uint => exact hconversion .convertFToU rfl rfl rfl ScalarType.noConfusion
    | bool => exact hcomparison .fUnordNotEqual rfl rfl rfl
  | int =>
    cases s' with
    | float => exact hconversion .convertSToF rfl rfl rfl ScalarType.noConfusion
    | double => exact hconversion .convertSToF rfl rfl rfl ScalarType.noConfusion
    | int => exact .throw
    | uint => exact hconversion .bitcast rfl rfl rfl ScalarType.noConfusion
    | bool => exact hcomparison .iNotEqual rfl rfl rfl
  | uint =>
    cases s' with
    | float => exact hconversion .convertUToF rfl rfl rfl ScalarType.noConfusion
    | double => exact hconversion .convertUToF rfl rfl rfl ScalarType.noConfusion
    | int => exact hconversion .bitcast rfl rfl rfl ScalarType.noConfusion
    | uint => exact .throw
    | bool => exact hcomparison .iNotEqual rfl rfl rfl

theorem convertPlain_attains (hs : b.Sound xs casts) {source target : Ty} {s s' : ScalarType}
    {n : Nat} {x : Id} (lanes : source.lanes? = some (s, n))
    (lanes' : target.lanes? = some (s', n)) (hx : b.Typed x source) :
    (convertPlain x source target).Attains xs casts b fun id b' => b'.Typed id target := by
  unfold convertPlain
  split
  · rename_i hsame
    exact .pure hs (hsame ▸ hx)
  · exact convertComponents_attains hs lanes lanes' hx

/-- A matrix is converted column by column. -/
theorem convert_attains (hs : b.Sound xs casts) {source target : Ty} {x : Id}
    (alike : Ty.Alike source target) (allowed : target.isAllowed casts) (hx : b.Typed x source) :
    (convert x source target).Attains xs casts b fun id b' => b'.Typed id target := by
  unfold convert
  split
  · rename_i hsame
    exact .pure hs (hsame ▸ hx)
  · rename_i hdifferent
    cases alike with
    | same => exact absurd rfl hdifferent
    | @lanes _ _ s s' n lanes lanes' =>
      cases source with
      | void | matrix | struct => simp [Ty.lanes?] at lanes
      | scalar | vector => exact convertComponents_attains hs lanes lanes' hx
    | matrices s s' columns rows =>
      refine (mapM_typed (t := .vector s' rows) hs fun i hi b₁ hgrows₁ hs₁ => ?_).bind
        fun ids b₁ hgrows₁ hs₁ hids => ?_
      · have hi : i < columns.toNat := List.mem_range.mp hi
        exact (emit_column hs₁ hi (hx.mono hgrows₁.includes)).bind
          fun part b₂ _ hs₂ hpart => convertPlain_attains hs₂ rfl rfl hpart
      · rw [List.length_range] at hids
        exact emit_construct hs₁ allowed rfl hids

/-- The same shape over another component type. -/
theorem withComponent_attains (hs : b.Sound xs casts) {x : Operand} (basic : x.ty.isBasic)
    (s : ScalarType) (allowed : (x.ty.withComponent s).isAllowed casts)
    (hx : b.Typed x.id x.ty) : (withComponent x s).Attains xs casts b fun y b' =>
      y.ty = x.ty.withComponent s ∧ b'.Typed y.id y.ty := by
  have hstruct : ¬x.ty.isStruct := by
    intro h
    cases hty : x.ty <;> simp [hty, Ty.isStruct, Ty.isBasic] at h basic
  unfold withComponent
  rw [if_neg hstruct]
  refine (convert_attains hs (Ty.alike_withComponent basic s) allowed hx).bind
    fun id b₁ _ hs₁ hid => ?_
  exact .pure hs₁ ⟨rfl, hid⟩

end Build

end ShaderExpr
