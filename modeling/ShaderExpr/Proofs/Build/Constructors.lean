import ShaderExpr.Proofs.Build.Binary
import ShaderExpr.Proofs.Collections
import ShaderExpr.Proofs.Grammar.Phrase

namespace ShaderExpr

open Typing

namespace Ty

/-- Position of a component inside a matrix. -/
theorem at?_matrix {s : ScalarType} {columns rows : Dim} {column row : Nat}
    (hcolumn : column < columns.toNat) (hrow : row < rows.toNat) :
    (matrix s columns rows).at? [column, row] = some (.scalar s) := by
  simp [at?, partTypes, hcolumn, hrow]

/-- A constructor turns the components of a matrix into such that do not float. -/
def castsMatrix (ty : Ty) (types : List Ty) : Bool :=
  types.any (·.isMatrix) && !(ty.component?.any (·.isFloating))

theorem FilledBy.isBasic {ty : Ty} {types : List Ty} (h : ty.FilledBy types) :
    ∀ t ∈ types, t.isBasic := by
  rcases h with ⟨s, rfl, -⟩ | ⟨t, rfl, hmatrix, -⟩ | ⟨hall, -⟩
  · intro u hu
    rw [List.mem_singleton.mp hu]
    rfl
  · intro u hu
    rw [List.mem_singleton.mp hu]
    cases t <;> first | rfl | simp [isMatrix] at hmatrix
  · exact fun t ht => (hall t ht).1

/-- Unless a single argument is a scalar or stretched like a matrix, there are enough components. -/
theorem FilledBy.enough {ty : Ty} {types : List Ty} (h : ty.FilledBy types)
    (several : ∀ t, types = [t] → t.isScalar = false ∧ ¬(ty.isMatrix ∧ t.isMatrix)) :
    ty.componentCount ≤ totalCount types := by
  rcases h with ⟨s, rfl, -⟩ | ⟨t, rfl, ht, hty⟩ | ⟨-, henough, -⟩
  · exact absurd (several _ rfl).1 (by simp [isScalar])
  · exact absurd ⟨hty, ht⟩ (several t rfl).2
  · exact henough

end Ty

theorem Folding.mem_positions {columns rows column row : Nat}
    (h : (column, row) ∈ positions columns rows) : column < columns ∧ row < rows := by
  simpa [positions] using h

theorem Folding.length_positions (columns rows : Nat) :
    (positions columns rows).length = columns * rows := by
  simp [positions]

namespace Build

open Builder

variable {xs : List Variable} {casts : Bool} {b b' : Builder}

theorem emit_component (hs : b.Sound xs casts) {s : ScalarType} {columns rows : Dim} {x : Id}
    {column row : Nat} (hcolumn : column < columns.toNat) (hrow : row < rows.toNat)
    (hx : b.Typed x (.matrix s columns rows)) :
    (emit .compositeExtract (.scalar s) [x, UInt32.ofNat column, UInt32.ofNat row]).Attains xs casts b
      fun id b' => b'.Typed id (.scalar s) := by
  have hcolumns := columns.toNat_bounds
  have hrows := rows.toNat_bounds
  rw [show [x, UInt32.ofNat column, UInt32.ofNat row] =
    x :: [column, row].map UInt32.ofNat from rfl]
  refine emit_extract hs rfl (fun i hi => ?_) (Ty.at?_matrix hcolumn hrow) hx
  simp only [List.mem_cons, List.not_mem_nil, or_false] at hi
  omega

/-- Every component is taken out once. -/
theorem componentIds_attains (hs : b.Sound xs casts) {x : Operand} {s : ScalarType}
    (basic : x.ty.isBasic) (component : x.ty.component? = some s) (hx : b.Typed x.id x.ty) :
    (componentIds x).Attains xs casts b fun ids b' =>
      ids.length = x.ty.componentCount ∧ ∀ id ∈ ids, b'.Typed id (.scalar s) := by
  obtain ⟨x, ty⟩ := x
  dsimp only at basic component hx ⊢
  cases ty with
  | void | struct => simp [Ty.isBasic] at basic
  | scalar s' =>
    obtain rfl := Option.some.inj component
    exact .pure hs ⟨rfl, by simpa using hx⟩
  | vector s' n =>
    obtain rfl := Option.some.inj component
    refine (mapM_typed (t := .scalar s') hs fun i hi b₁ hgrows₁ hs₁ => ?_).mono
      fun ids b₁ _ _ hids => ?_
    · have hi : i < n.toNat := List.mem_range.mp hi
      have hbounds := n.toNat_bounds
      rw [show [x, UInt32.ofNat i] = x :: [i].map UInt32.ofNat from rfl]
      refine emit_extract hs₁ rfl (fun j hj => ?_) ?_ (hx.mono hgrows₁.includes)
      · rw [List.mem_singleton.mp hj]
        omega
      · simp [Ty.at?, Ty.partTypes, hi]
    · rw [List.length_range] at hids
      exact List.forall₂_replicate_iff.mp hids
  | matrix s' columns rows =>
    obtain rfl := Option.some.inj component
    refine (mapM_typed (t := .scalar s') hs fun position hposition b₁ hgrows₁ hs₁ => ?_).mono
      fun ids b₁ _ _ hids => ?_
    · obtain ⟨hcolumn, hrow⟩ := Folding.mem_positions hposition
      exact emit_component hs₁ hcolumn hrow (hx.mono hgrows₁.includes)
    · rw [Folding.length_positions] at hids
      exact List.forall₂_replicate_iff.mp hids

/-- As many components as asked for come from operands that have as many. Those that were found
    already are in front, and components behind the last one needed are not taken. -/
theorem gather_attains {s : ScalarType} {count : Nat} {operands : List Operand} {found : List Id}
    (hs : b.Sound xs casts) (basic : ∀ x ∈ operands, x.ty.isBasic)
    (allowed : ∀ x ∈ operands, (x.ty.withComponent s).isAllowed casts)
    (enough : count ≤ found.length + Ty.totalCount (operands.map (·.ty)))
    (typed : ∀ x ∈ operands, b.Typed x.id x.ty) (hfound : ∀ id ∈ found, b.Typed id (.scalar s)) :
    (gather s count operands found).Attains xs casts b fun ids b' =>
      ids.length = count ∧ ∀ id ∈ ids, b'.Typed id (.scalar s) := by
  have hdone {b : Builder} (hs : b.Sound xs casts) {found : List Id}
      (hfound : ∀ id ∈ found, b.Typed id (.scalar s)) (hcount : count ≤ found.length) :
      (pure (found.take count) : Build (List Id)).Attains xs casts b fun ids b' =>
        ids.length = count ∧ ∀ id ∈ ids, b'.Typed id (.scalar s) :=
    .pure hs ⟨List.length_take_of_le hcount, fun id hid => hfound id (List.mem_of_mem_take hid)⟩
  induction operands generalizing b found with
  | nil => exact hdone hs hfound (by simpa [Ty.totalCount] using enough)
  | cons x rest ih =>
    unfold gather
    split
    · rename_i hcount
      exact hdone hs hfound hcount
    · have hbasic := basic x List.mem_cons_self
      refine (withComponent_attains hs hbasic s (allowed x List.mem_cons_self)
        (typed x List.mem_cons_self)).bind fun y b₁ hgrows₁ hs₁ hy => ?_
      obtain ⟨hyty, hy⟩ := hy
      have hybasic : y.ty.isBasic := hyty ▸ Ty.isBasic_withComponent hbasic s
      have hycomponent : y.ty.component? = some s := hyty ▸ Ty.component?_withComponent hbasic s
      refine (componentIds_attains hs₁ hybasic hycomponent hy).bind
        fun more b₂ hgrows₂ hs₂ hmore => ?_
      obtain ⟨hlength, hmore⟩ := hmore
      have hgrows := hgrows₁.trans hgrows₂
      refine ih hs₂ (fun z hz => basic z (List.mem_cons_of_mem x hz))
        (fun z hz => allowed z (List.mem_cons_of_mem x hz)) ?_
        (fun z hz => (typed z (List.mem_cons_of_mem x hz)).mono hgrows.includes) ?_
      · rw [List.length_append, hlength, hyty, Ty.componentCount_withComponent hbasic]
        simp only [List.map_cons, Ty.totalCount] at enough
        omega
      · intro id hid
        rcases List.mem_append.mp hid with hid | hid
        · exact (hfound id hid).mono hgrows.includes
        · exact hmore id hid

/-- A matrix from components of its type, column by column. `component` may add code for each of
    them, so it is asked for in every later state. -/
theorem assemble_attains (hs : b.Sound xs casts) {s : ScalarType} {columns rows : Dim}
    {component : Nat → Nat → Build Id} (allowed : (Ty.matrix s columns rows).isAllowed casts)
    (typed : ∀ column row b', column < columns.toNat → row < rows.toNat → b.Grows b' →
      b'.Sound xs casts →
      (component column row).Attains xs casts b' fun id b'' => b''.Typed id (.scalar s)) :
    (assemble (.matrix s columns rows) s columns rows component).Attains xs casts b
      fun id b' => b'.Typed id (.matrix s columns rows) := by
  refine (mapM_typed (t := .vector s rows) hs fun column hcolumn b₁ hgrows₁ hs₁ => ?_).bind
    fun ids b₁ _ hs₁ hids => ?_
  · refine (mapM_typed (t := .scalar s) hs₁ fun row hrow b₂ hgrows₂ hs₂ => ?_).bind
      fun ids b₂ _ hs₂ hids => ?_
    · exact typed column row b₂ (List.mem_range.mp hcolumn) (List.mem_range.mp hrow)
        (hgrows₁.trans hgrows₂) hs₂
    · rw [List.length_range] at hids
      exact emit_construct hs₂ rfl rfl hids
  · rw [List.length_range] at hids
    exact emit_construct hs₁ allowed rfl hids

/-- A value of the components of its arguments in order. There are enough of them, and each argument
    can be converted as a whole: for a matrix that is where a matrix of components that do not float
    may be declared. -/
theorem constructInOrder_attains (hs : b.Sound xs casts) {ty : Ty} {s : ScalarType}
    {operands : List Operand} (proper : ty.isProper) (component : ty.component? = some s)
    (basic : ∀ x ∈ operands, x.ty.isBasic)
    (allowed : ∀ x ∈ operands, (x.ty.withComponent s).isAllowed casts)
    (enough : ty.componentCount ≤ Ty.totalCount (operands.map (·.ty)))
    (typed : ∀ x ∈ operands, b.Typed x.id x.ty) :
    (constructInOrder ty s operands).Attains xs casts b fun id b' => b'.Typed id ty := by
  have henough : ty.componentCount ≤ ([] : List Id).length + Ty.totalCount (operands.map (·.ty)) := by
    simpa using enough
  refine (gather_attains hs basic allowed henough typed (by simp)).bind
    fun ids b₁ _ hs₁ ⟨hlength, hids⟩ => ?_
  cases ty with
  | void | struct => simp [Ty.component?] at component
  | scalar s' =>
    obtain rfl := Option.some.inj component
    cases ids with
    | nil => simp [Ty.componentCount] at hlength
    | cons id rest => exact .pure hs₁ (hids id List.mem_cons_self)
  | vector s' n =>
    obtain rfl := Option.some.inj component
    exact emit_construct hs₁ rfl rfl (List.forall₂_replicate_iff.mpr ⟨hlength, hids⟩)
  | matrix s' columns rows =>
    obtain rfl := Option.some.inj component
    refine (mapM_typed (t := .vector s' rows) hs₁ fun column hcolumn b₂ hgrows₂ hs₂ => ?_).bind
      fun ids b₂ _ hs₂ hids => ?_
    · refine emit_construct hs₂ rfl rfl (List.forall₂_replicate_iff.mpr ⟨?_, fun id hid => ?_⟩)
      · exact List.length_take_drop hlength (List.mem_range.mp hcolumn)
      · exact (hids id (List.mem_of_mem_drop (List.mem_of_mem_take hid))).mono hgrows₂.includes
    · rw [List.length_range] at hids
      exact emit_construct hs₂ (Ty.isAllowed_of_isProper casts proper) rfl hids

/-- Over the component type of a constructor, arguments have types that a module may declare. -/
theorem allowed_of_castsMatrix {ty t : Ty} {types : List Ty} {s : ScalarType}
    (component : ty.component? = some s) (basic : t.isBasic) (ht : t ∈ types)
    (hcasts : ty.castsMatrix types → casts) : (t.withComponent s).isAllowed casts := by
  cases t with
  | void | struct => simp [Ty.isBasic] at basic
  | scalar | vector => rfl
  | matrix s' columns rows =>
    change casts || s.isFloating
    cases hfloating : s.isFloating with
    | true => simp
    | false =>
      rw [Bool.or_false]
      refine hcasts ?_
      rw [Ty.castsMatrix, component, Option.any_some, hfloating]
      exact Bool.and_eq_true_iff.mpr ⟨List.any_eq_true.mpr ⟨_, ht, rfl⟩, rfl⟩

/-- A single component fills any type but those of structs: it is repeated in a vector, and stands
    on the diagonal of a matrix. -/
theorem filled_attains (hs : b.Sound xs casts) {ty : Ty} {s : ScalarType} {value : Id}
    (proper : ty.isProper) (component : ty.component? = some s)
    (hvalue : b.Typed value (.scalar s)) :
    (filled ty value).Attains xs casts b fun id b' => b'.Typed id ty := by
  cases ty with
  | void | struct => simp [Ty.component?] at component
  | scalar | vector =>
    obtain rfl := Option.some.inj component
    exact splat_attains hs rfl hvalue
  | matrix s' columns rows =>
    obtain rfl := Option.some.inj component
    refine (zeroId_typed hs (show (Ty.scalar s').isAllowed casts from rfl)).bind
      fun zero b₁ hgrows₁ hs₁ hzero => ?_
    apply assemble_attains hs₁ (Ty.isAllowed_of_isProper casts proper)
    intro column row b₂ _ _ hgrows₂ hs₂
    apply Attains.pure hs₂
    split
    · exact hvalue.mono (hgrows₁.trans hgrows₂).includes
    · exact hzero.mono hgrows₂.includes

/-- Positions outside of the source of a matrix are those of the identity. All others are taken from
    the source, which has the component type already. -/
theorem resized_attains (hs : b.Sound xs casts) {s : ScalarType} {columns rows columns' rows' : Dim}
    {source : Id} (proper : (Ty.matrix s columns rows).isProper)
    (hsource : b.Typed source (.matrix s columns' rows')) :
    (resized s columns rows columns' rows' source).Attains xs casts b
      fun id b' => b'.Typed id (.matrix s columns rows) := by
  have hscalar : (Ty.scalar s).isAllowed casts := rfl
  refine (zeroId_typed hs hscalar).bind fun zero b₁ hgrows₁ hs₁ hzero => ?_
  refine (oneId_attains hs₁ hscalar).bind fun one b₂ hgrows₂ hs₂ hone => ?_
  apply assemble_attains hs₂ (Ty.isAllowed_of_isProper casts proper)
  intro column row b₃ _ _ hgrows₃ hs₃
  split
  · rename_i hinside
    exact emit_component hs₃ hinside.1 hinside.2
      (hsource.mono ((hgrows₁.trans hgrows₂).trans hgrows₃).includes)
  · apply Attains.pure hs₃
    split
    · exact hone.mono hgrows₃.includes
    · exact hzero.mono (hgrows₂.trans hgrows₃).includes

/-- The code of a constructor gives a value of its type. What takes components of the arguments in
    order finds all that the type needs, since the arguments were checked to fill it. -/
theorem construct_attains (hs : b.Sound xs casts) {ty : Ty} {operands : List Operand}
    (proper : ty.isProper) (basic : ty.isBasic) (fills : ty.FilledBy (operands.map (·.ty)))
    (hcasts : ty.castsMatrix (operands.map (·.ty)) → casts)
    (typed : ∀ x ∈ operands, b.Typed x.id x.ty) :
    (construct ty operands).Attains xs casts b fun id b' => b'.Typed id ty := by
  obtain ⟨s, component⟩ := Ty.component?_of_isBasic basic
  have hbasic : ∀ x ∈ operands, x.ty.isBasic := fun x hx =>
    fills.isBasic _ (List.mem_map_of_mem hx)
  have hallowed : ∀ x ∈ operands, (x.ty.withComponent s).isAllowed casts := fun x hx =>
    allowed_of_castsMatrix component (hbasic x hx) (List.mem_map_of_mem hx) hcasts
  have hinOrder (several : ∀ t, operands.map (·.ty) = [t] →
      t.isScalar = false ∧ ¬(ty.isMatrix ∧ t.isMatrix)) :=
    constructInOrder_attains hs proper component hbasic hallowed (fills.enough several) typed
  unfold construct
  rw [componentOf_eq component, pure_bind]
  split
  · rename_i x
    have hx := List.mem_singleton_self x
    have hconverted := withComponent_attains hs (hbasic x hx) s (hallowed x hx) (typed x hx)
    split
    · rename_i hscalar
      refine hconverted.bind fun value b₁ _ hs₁ hvalue => ?_
      obtain ⟨hty, hvalue⟩ := hvalue
      apply filled_attains hs₁ proper component
      rw [hty] at hvalue
      generalize x.ty = t at hscalar hvalue
      cases t with
      | void | scalar => exact hvalue
      | vector | matrix | struct => simp [Ty.isScalar] at hscalar
    · rename_i hscalar
      split
      · rename_i s' columns rows t columns' rows' hxty
        obtain rfl := Option.some.inj component
        refine hconverted.bind fun source b₁ _ hs₁ hsource => ?_
        obtain ⟨hty, hsource⟩ := hsource
        apply resized_attains hs₁ proper
        rwa [hty, hxty] at hsource
      · rename_i ty _ _ hmatrices
        apply hinOrder
        intro t ht
        obtain rfl : x.ty = t := by simpa using ht
        refine ⟨by simpa using hscalar, ?_⟩
        rintro ⟨hty, ht⟩
        cases ty <;> simp [Ty.isMatrix] at hty
        generalize x.ty = t at ht hmatrices
        cases t <;> simp [Ty.isMatrix] at ht
        exact hmatrices _ _ _ _ _ _ rfl rfl
  · rename_i hseveral
    apply hinOrder
    intro t ht
    obtain ⟨x, hx⟩ : ∃ x, operands = [x] := by
      cases operands with
      | nil => simp at ht
      | cons x rest =>
        obtain rfl : rest = [] := by simpa using congrArg List.length ht
        exact ⟨x, rfl⟩
    exact absurd hx (hseveral x)

end Build

end ShaderExpr
