import ShaderExpr.Proofs.Build.Calls
import ShaderExpr.Proofs.Faults.Limits

namespace ShaderExpr

namespace Ty

theorem isComplete_of_component? {ty : Ty} {s : ScalarType} (h : ty.component? = some s) :
    ty.isComplete := by
  cases ty with
  | void | struct => simp [component?] at h
  | scalar | vector | matrix => rfl

end Ty

namespace Build

variable [Limits] {b b' : Builder}

/-- Component types that differ are converted between. -/
theorem convertComponents_runs {source target : Ty} {s s' : ScalarType} (x : Id)
    (component : source.component? = some s) (component' : target.component? = some s')
    (differ : s ≠ s') : (convertComponents x source target).Runs b := by
  have hsource := Ty.isComplete_of_component? component
  have htarget := Ty.isComplete_of_component? component'
  have hselect {b : Builder} : (do
      let one ← oneId target
      let zero ← zeroId target
      emit .select target [x, one, zero]).Runs b :=
    (oneId_runs component').bind fun _ _ _ => (zeroId_runs htarget).bind
      fun _ _ _ => emit_runs _ _ _
  have hcompare {b : Builder} (op : Opcode) : (do
      let zero ← zeroId source
      emit op target [x, zero]).Runs b :=
    (zeroId_runs hsource).bind fun _ _ _ => emit_runs _ _ _
  unfold convertComponents
  rw [component, component']
  cases s <;> cases s' <;>
    first
    | exact absurd rfl differ
    | exact hselect
    | exact emit_runs _ _ _
    | exact hcompare _

theorem convertPlain_runs {source target : Ty} {s s' : ScalarType} {n : Nat} (x : Id)
    (lanes : source.lanes? = some (s, n)) (lanes' : target.lanes? = some (s', n)) :
    (convertPlain x source target).Runs b := by
  refine .ite (fun _ => .pure x) fun hne => ?_
  apply convertComponents_runs x (Ty.component?_of_lanes? lanes) (Ty.component?_of_lanes? lanes')
  rintro rfl
  exact hne (Ty.eq_of_lanes? lanes lanes')

theorem convert_runs {source target : Ty} (x : Id) (alike : Ty.Alike source target) :
    (convert x source target).Runs b := by
  refine .ite (fun _ => .pure x) fun hne => ?_
  cases alike with
  | same => exact absurd rfl hne
  | lanes lanes lanes' =>
    have hconvert := convertPlain_runs (b := b) x lanes lanes'
    rw [convertPlain, if_neg hne] at hconvert
    cases source with
    | void | matrix | struct => simp [Ty.lanes?] at lanes
    | scalar | vector => exact hconvert
  | matrices s s' columns rows =>
    refine Runs.bind (.mapM fun i _ b₁ => ?_) fun _ _ _ => emit_runs _ _ _
    exact (emit_runs _ _ _).bind fun part _ _ => convertPlain_runs part rfl rfl

theorem withComponent_runs {x : Operand} (basic : x.ty.isBasic) (s : ScalarType) :
    (withComponent x s).Runs b := by
  refine .ite (fun hstruct => ?_) fun _ => ?_
  · rw [Ty.isStruct_of_isBasic basic] at hstruct
    exact absurd hstruct Bool.false_ne_true
  · exact (convert_runs x.id (Ty.alike_withComponent basic s)).bind fun _ _ _ => .pure _

/-- The type of a converted operand. -/
theorem ty_of_withComponent {x y : Operand} {s : ScalarType}
    (h : withComponent x s b = .ok (y, b')) : y.ty = x.ty.withComponent s := by
  unfold withComponent at h
  split at h
  · cases h
  · obtain ⟨id, b₁, -, hpure⟩ := bind_eq_ok.mp h
    obtain ⟨rfl, -⟩ := Prod.mk.inj (Except.ok.inj hpure)
    rfl

/-- Both operands are converted, and the rest goes on with operands of their new types. -/
theorem withComponents_runs {l r : Operand} {s : ScalarType} {f : Operand → Operand → Build Id}
    (left : l.ty.isBasic) (right : r.ty.isBasic)
    (hf : ∀ l' r' b', l'.ty = l.ty.withComponent s → r'.ty = r.ty.withComponent s →
      (f l' r').Runs b') :
    (do
      let l ← withComponent l s
      let r ← withComponent r s
      f l r : Build Id).Runs b :=
  (withComponent_runs left s).bind fun _ _ hl => (withComponent_runs right s).bind
    fun _ _ hr => hf _ _ _ (ty_of_withComponent hl) (ty_of_withComponent hr)

theorem broadcast_runs (x : Operand) (ty : Ty) : (broadcast x ty).Runs b :=
  .ite (fun _ => splat_runs _ _) fun _ => .pure _

theorem componentwise_runs (op : Opcode) (ty : Ty) (l r : Operand) :
    (componentwise op ty l r).Runs b :=
  (broadcast_runs _ _).bind fun _ _ _ => (broadcast_runs _ _).bind fun _ _ _ => emit_runs _ _ _

theorem product_runs {ty : Ty} {s : ScalarType} (component : ty.component? = some s)
    (l r : Operand) : (product ty l r).Runs b := by
  unfold product
  rw [componentOf_eq component, pure_bind]
  dsimp only
  split
  all_goals
    first
    | exact emit_runs _ _ _
    | exact componentwise_runs _ _ _ _
    | exact .ite (fun _ => emit_runs _ _ _) fun _ => componentwise_runs _ _ _ _

theorem columnPart_runs (repeated : Option Id) (column : Ty) (x : Id) (i : Nat) :
    (columnPart repeated column x i).Runs b := by
  cases repeated with
  | some id => exact .pure id
  | none => exact emit_runs _ _ _

theorem repeatedColumn_runs (column : Ty) (x : Operand) : (repeatedColumn column x).Runs b :=
  .ite (fun _ => (splat_runs _ _).map) fun _ => .pure none

theorem perColumn_runs (op : Opcode) {ty : Ty} (matrix : ty.isMatrix) (l r : Operand) :
    (perColumn op ty l r).Runs b := by
  cases ty with
  | void | scalar | vector | struct => simp [Ty.isMatrix] at matrix
  | matrix s columns rows =>
    rw [perColumn_matrix]
    refine (repeatedColumn_runs _ _).bind fun left _ _ => (repeatedColumn_runs _ _).bind
      fun right _ _ => Runs.bind (.mapM fun i _ b₁ => ?_) fun _ _ _ => emit_runs _ _ _
    exact (columnPart_runs _ _ _ _).bind fun _ _ _ => (columnPart_runs _ _ _ _).bind
      fun _ _ _ => emit_runs _ _ _

theorem reciprocal_runs {x : Operand} {s : ScalarType} (component : x.ty.component? = some s) :
    (reciprocal x).Runs b := by
  obtain ⟨x, ty⟩ := x
  dsimp only at component
  cases ty with
  | void | struct => simp [Ty.component?] at component
  | matrix s' columns rows =>
    rw [reciprocal_matrix]
    refine (oneId_runs (show (Ty.vector s' rows).component? = some s' from rfl)).bind fun ones _ _ =>
      Runs.bind (.mapM fun i _ b₁ => ?_) fun _ _ _ => emit_runs _ _ _
    exact (columnPart_runs _ _ _ _).bind fun _ _ _ => emit_runs _ _ _
  | scalar | vector => exact (oneId_runs component).bind fun _ _ _ => emit_runs _ _ _

theorem matrixDivision_runs {ty : Ty} {l r : Operand} {s : ScalarType} (matrix : ty.isMatrix)
    (component : r.ty.component? = some s) : (matrixDivision ty l r).Runs b :=
  (reciprocal_runs component).bind fun _ _ _ => .ite (fun _ => emit_runs _ _ _) fun _ =>
    .ite (fun _ => emit_runs _ _ _) fun _ => perColumn_runs .fMul matrix _ _

theorem arithmetic_runs {op : Operator} {l r : Operand} {left right ty : Ty} {s : ScalarType}
    (family : op.family = .arithmetic) (number : s ≠ .bool)
    (shape : Operator.TermShape s left right ty) (hlty : l.ty = left.withComponent s)
    (hrty : r.ty = right.withComponent s) (basic : right.isBasic) :
    (arithmetic op ty l r).Runs b := by
  unfold arithmetic
  refine .ite (fun hdivision => ?_) fun _ => ?_
  · -- A matrix takes part, so the result is a matrix.
    obtain ⟨hleft, hright⟩ := shape.terms
    have hterm {t : Ty} (h : Ty.IsTerm s ty t) (ht : t.isMatrix) : ty.isMatrix := by
      rcases h with rfl | rfl
      · exact ht
      · simp [Ty.isMatrix] at ht
    have hmatrix : ty.isMatrix := by
      rcases Bool.or_eq_true_iff.mp hdivision.2 with h | h
      · exact hterm hleft (hlty ▸ h)
      · exact hterm hright (hrty ▸ h)
    exact matrixDivision_runs hmatrix (hrty ▸ Ty.component?_withComponent basic s)
  · obtain ⟨opcode, hopcode, -⟩ := arithmeticOpcode?_form family number
    rw [componentOf_eq shape.component, pure_bind, hopcode, opcodeOf_some, pure_bind]
    exact .ite (fun hmatrix => perColumn_runs _ hmatrix _ _) fun _ => componentwise_runs _ _ _ _

theorem vectorEquality_runs (equal : Bool) (ty : Ty) (l r : Id) :
    (vectorEquality equal ty l r).Runs b := by
  unfold vectorEquality
  cases ty with
  | vector => exact (emit_runs _ _ _).bind fun _ _ _ => emit_runs _ _ _
  | void | scalar | matrix | struct => exact emit_runs _ _ _

theorem columnsEquality_runs (equal : Bool) (column : Ty) (l r : Id) (count i : Nat) (sofar : Id) :
    (columnsEquality equal column l r count i sofar).Runs b := by
  induction count generalizing b i sofar with
  | zero => exact .pure sofar
  | succ count ih =>
    exact (emit_runs _ _ _).bind fun _ _ _ => (emit_runs _ _ _).bind fun _ _ _ =>
      (vectorEquality_runs _ _ _ _).bind fun _ _ _ => (emit_runs _ _ _).bind fun _ _ _ => ih _ _

theorem equality_runs (equal : Bool) {ty : Ty} (basic : ty.isBasic) (l r : Id) :
    (equality equal ty l r).Runs b := by
  cases ty with
  | void | struct => simp [Ty.isBasic] at basic
  | scalar s => exact vectorEquality_runs equal (.scalar s) l r
  | vector s n => exact vectorEquality_runs equal (.vector s n) l r
  | matrix s columns rows =>
    exact (emit_runs _ _ _).bind fun _ _ _ => (emit_runs _ _ _).bind fun _ _ _ =>
      (vectorEquality_runs _ _ _ _).bind fun _ _ _ => columnsEquality_runs _ _ _ _ _ _ _

theorem shiftAmount_runs (l r : Operand) : (shiftAmount l r).Runs b := by
  unfold shiftAmount
  split
  · exact .ite (fun _ => splat_runs _ _) fun _ => .pure _
  · exact .pure _

/-- An operator has code for all operands that it gives a type to. What else it could fail for
    depends on the types of its operands alone, not on what was built before. -/
theorem binary_runs {op : Operator} {ty : Ty} {l r : Operand}
    (typed : op.resultType l.ty r.ty = .ok ty) : (binary op ty l r).Runs b := by
  obtain ⟨x, lty⟩ := l
  obtain ⟨y, rty⟩ := r
  have hcommon {left right : Ty} {s : ScalarType} (h : commonComponent left right = .ok s) :
      left.isBasic ∧ right.isBasic := by
    obtain ⟨_, _, hl, hr, -⟩ := commonComponent_eq_ok h
    exact ⟨Ty.isBasic_of_component? hl, Ty.isBasic_of_component? hr⟩
  have hrule := Operator.resultType_typed typed
  unfold binary
  generalize hfamily : op.family = family at hrule
  cases hrule with
  | @multiplication _ _ _ s number common shape =>
    obtain ⟨hleft, hright⟩ := hcommon common
    dsimp only
    rw [componentOf_eq shape.component, pure_bind]
    exact withComponents_runs hleft hright fun _ _ _ _ _ => product_runs shape.component _ _
  | @arithmetic _ _ _ s number common shape =>
    obtain ⟨hleft, hright⟩ := hcommon common
    dsimp only
    rw [componentOf_eq shape.component, pure_bind]
    exact withComponents_runs hleft hright fun _ _ _ hlty hrty =>
      arithmetic_runs hfamily number shape hlty hrty hright
  | @integer _ _ _ _ s integral left_integral right_integral integer shape =>
    obtain ⟨hleft, -⟩ := integral_proper left_integral s
    obtain ⟨hright, -⟩ := integral_proper right_integral s
    obtain ⟨opcode, hopcode, -⟩ := integerOpcode?_form (hfamily ▸ integral) integer
    have hcode : (do
        let s ← componentOf ty
        let l ← withComponent ⟨x, lty⟩ s
        let r ← withComponent ⟨y, rty⟩ s
        Build.integral op ty s l r).Runs b := by
      rw [componentOf_eq shape.component, pure_bind]
      refine withComponents_runs hleft hright fun l' r' _ _ _ => ?_
      unfold Build.integral
      rw [hopcode, opcodeOf_some, pure_bind]
      exact componentwise_runs _ _ _ _
    rcases integral with rfl | rfl
    · exact hcode
    · exact hcode
  | shift => exact (shiftAmount_runs _ _).bind fun _ _ _ => emit_runs _ _ _
  | relational left_number right_number common =>
    obtain ⟨lc, rc, hlc, -, hls, -⟩ := commonComponent_eq_ok common
    have hnumber := ScalarType.ne_bool_of_convertsTo hls (Option.some.inj hlc ▸ left_number)
    obtain ⟨opcode, hopcode, -⟩ := relationOpcode?_form hfamily hnumber
    dsimp only
    rw [commonOf_eq common, pure_bind]
    refine withComponents_runs rfl rfl fun l' r' _ _ _ => ?_
    unfold relation
    rw [hopcode, opcodeOf_some, pure_bind]
    exact emit_runs _ _ _
  | equality left_basic right_basic comparable =>
    obtain ⟨s, hs, -⟩ := commonComponent_of_convertsTo left_basic comparable
    dsimp only
    rw [commonOf_eq hs, pure_bind]
    exact withComponents_runs left_basic right_basic fun _ _ _ hlty _ =>
      equality_runs _ (hlty ▸ Ty.isBasic_withComponent left_basic s) _ _
  | logical =>
    obtain ⟨opcode, hopcode, -⟩ := logicalOpcode?_form hfamily
    dsimp only
    rw [hopcode, opcodeOf_some, pure_bind]
    exact emit_runs _ _ _

theorem negation_runs {x : Operand} (basic : x.ty.isBasic) : (negation x).Runs b := by
  obtain ⟨x, ty⟩ := x
  dsimp only at basic
  cases ty with
  | void | struct => simp [Ty.isBasic] at basic
  | scalar | vector => exact emit_runs _ _ _
  | matrix s columns rows =>
    rw [negation_matrix]
    refine Runs.bind (.mapM fun i _ b₁ => ?_) fun _ _ _ => emit_runs _ _ _
    exact (emit_runs _ _ _).bind fun _ _ _ => emit_runs _ _ _

theorem componentIds_runs {x : Operand} (basic : x.ty.isBasic) : (componentIds x).Runs b := by
  obtain ⟨x, ty⟩ := x
  dsimp only at basic
  cases ty with
  | void | struct => simp [Ty.isBasic] at basic
  | scalar => exact .pure _
  | vector | matrix => exact .mapM fun _ _ _ => emit_runs _ _ _

theorem gather_runs {s : ScalarType} {count : Nat} {operands : List Operand} {found : List Id}
    (basic : ∀ x ∈ operands, x.ty.isBasic) : (gather s count operands found).Runs b := by
  induction operands generalizing b found with
  | nil => exact .pure _
  | cons x rest ih =>
    have hx := basic x List.mem_cons_self
    refine .ite (fun _ => .pure _) fun _ => (withComponent_runs hx s).bind fun y _ hy => ?_
    have hybasic : y.ty.isBasic := ty_of_withComponent hy ▸ Ty.isBasic_withComponent hx s
    exact (componentIds_runs hybasic).bind fun _ _ _ =>
      ih fun z hz => basic z (List.mem_cons_of_mem x hz)

omit [Limits] in
theorem length_of_mapM {α : Type} {f : α → Build Id} {l : List α} {ids : List Id}
    (h : l.mapM f b = .ok (ids, b')) : ids.length = l.length := by
  induction l generalizing b b' ids with
  | nil =>
    obtain ⟨rfl, -⟩ : [] = ids ∧ b = b' := Prod.mk.inj (Except.ok.inj h)
    rfl
  | cons x l ih =>
    rw [List.mapM_cons] at h
    obtain ⟨id, b₁, -, h⟩ := bind_eq_ok.mp h
    obtain ⟨rest, b₂, hrest, h⟩ := bind_eq_ok.mp h
    obtain ⟨rfl, -⟩ : id :: rest = ids ∧ b₂ = b' := Prod.mk.inj (Except.ok.inj h)
    rw [List.length_cons, List.length_cons, ih hrest]

/-- Every component is taken out once. -/
theorem length_of_componentIds {x : Operand} {ids : List Id} (basic : x.ty.isBasic)
    (h : componentIds x b = .ok (ids, b')) : ids.length = x.ty.componentCount := by
  obtain ⟨x, ty⟩ := x
  dsimp only at basic ⊢
  cases ty with
  | void | struct => simp [Ty.isBasic] at basic
  | scalar =>
    obtain ⟨rfl, -⟩ : [x] = ids ∧ b = b' := Prod.mk.inj (Except.ok.inj h)
    rfl
  | vector => rw [length_of_mapM h, List.length_range, Ty.componentCount]
  | matrix => rw [length_of_mapM h, Folding.length_positions, Ty.componentCount]

/-- As many components as asked for come from operands that have as many. Those in `found` were
    taken from operands in front. -/
theorem length_of_gather {s : ScalarType} {count : Nat} {operands : List Operand}
    {found ids : List Id} (basic : ∀ x ∈ operands, x.ty.isBasic)
    (enough : count ≤ found.length + Ty.totalCount (operands.map (·.ty)))
    (h : gather s count operands found b = .ok (ids, b')) : ids.length = count := by
  have hdone {b : Builder} {found : List Id} (hcount : count ≤ found.length)
      (h : (pure (found.take count) : Build (List Id)) b = .ok (ids, b')) : ids.length = count := by
    obtain ⟨rfl, -⟩ : found.take count = ids ∧ b = b' := Prod.mk.inj (Except.ok.inj h)
    exact List.length_take_of_le hcount
  induction operands generalizing b found with
  | nil => exact hdone (by simpa [Ty.totalCount] using enough) h
  | cons x rest ih =>
    unfold gather at h
    split at h
    · rename_i hcount
      exact hdone hcount h
    · have hbasic := basic x List.mem_cons_self
      obtain ⟨y, b₁, hy, h⟩ := bind_eq_ok.mp h
      obtain ⟨more, b₂, hmore, h⟩ := bind_eq_ok.mp h
      have hyty := ty_of_withComponent hy
      have hlength := length_of_componentIds (hyty ▸ Ty.isBasic_withComponent hbasic s) hmore
      refine ih (fun z hz => basic z (List.mem_cons_of_mem x hz)) ?_ h
      rw [List.length_append, hlength, hyty, Ty.componentCount_withComponent hbasic]
      simp only [List.map_cons, Ty.totalCount] at enough
      omega

theorem assemble_runs {ty : Ty} {s : ScalarType} {columns rows : Dim}
    {component : Nat → Nat → Build Id} (h : ∀ column row b, (component column row).Runs b) :
    (assemble ty s columns rows component).Runs b := by
  refine Runs.bind (.mapM fun column _ b₁ => ?_) fun _ _ _ => emit_runs _ _ _
  exact Runs.bind (.mapM fun row _ b₂ => h column row b₂) fun _ _ _ => emit_runs _ _ _

theorem filled_runs (ty : Ty) (value : Id) : (filled ty value).Runs b := by
  cases ty with
  | void | scalar | vector | struct => exact splat_runs _ _
  | matrix s columns rows =>
    exact (zeroId_runs (show (Ty.scalar s).isComplete from rfl)).bind fun _ _ _ =>
      assemble_runs fun _ _ _ => .pure _

theorem resized_runs (s : ScalarType) (columns rows columns' rows' : Dim) (source : Id) :
    (resized s columns rows columns' rows' source).Runs b := by
  refine (zeroId_runs (show (Ty.scalar s).isComplete from rfl)).bind fun zero _ _ => ?_
  refine (oneId_runs (show (Ty.scalar s).component? = some s from rfl)).bind fun one _ _ => ?_
  exact assemble_runs fun _ _ _ => .ite (fun _ => emit_runs _ _ _) fun _ => .pure _

/-- Arguments with as many components as the type needs have code in order. With fewer of them the
    columns of a matrix would run out of components. -/
theorem constructInOrder_runs {ty : Ty} {s : ScalarType} {operands : List Operand}
    (component : ty.component? = some s) (basic : ∀ x ∈ operands, x.ty.isBasic)
    (enough : ty.componentCount ≤ Ty.totalCount (operands.map (·.ty))) :
    (constructInOrder ty s operands).Runs b := by
  refine (gather_runs basic).bind fun ids b₁ hids => ?_
  have hlength : ids.length = ty.componentCount :=
    length_of_gather basic (by simpa using enough) hids
  cases ty with
  | void | struct => simp [Ty.component?] at component
  | scalar =>
    cases ids with
    | nil => simp [Ty.componentCount] at hlength
    | cons id rest => exact .pure id
  | vector => exact emit_runs _ _ _
  | matrix =>
    exact Runs.bind (.mapM fun _ _ _ => emit_runs _ _ _) fun _ _ _ => emit_runs _ _ _

theorem construct_runs {ty : Ty} {operands : List Operand} (basic : ty.isBasic)
    (fills : ty.FilledBy (operands.map (·.ty))) : (construct ty operands).Runs b := by
  obtain ⟨s, component⟩ := Ty.component?_of_isBasic basic
  have hbasic : ∀ x ∈ operands, x.ty.isBasic := fun x hx =>
    fills.isBasic _ (List.mem_map_of_mem hx)
  have hinOrder (several : ∀ t, operands.map (·.ty) = [t] →
      t.isScalar = false ∧ ¬(ty.isMatrix ∧ t.isMatrix)) : (constructInOrder ty s operands).Runs b :=
    constructInOrder_runs component hbasic (fills.enough several)
  unfold construct
  rw [componentOf_eq component, pure_bind]
  split
  · rename_i x
    have hconverted := withComponent_runs (b := b) (hbasic x (List.mem_singleton_self x)) s
    refine .ite (fun _ => hconverted.bind fun _ _ _ => filled_runs _ _) fun hscalar => ?_
    split
    · obtain rfl := Option.some.inj component
      exact hconverted.bind fun _ _ _ => resized_runs _ _ _ _ _ _
    · rename_i ty _ _ hmatrices
      apply hinOrder
      intro t ht
      obtain rfl : x.ty = t := by simpa using ht
      refine ⟨by simpa using hscalar, fun ⟨hty, ht⟩ => ?_⟩
      cases ty <;> simp [Ty.isMatrix] at hty
      generalize x.ty = t at ht hmatrices
      cases t <;> simp [Ty.isMatrix] at ht
      exact hmatrices _ _ _ _ _ _ rfl rfl
  · rename_i hseveral
    apply hinOrder
    intro t ht
    obtain ⟨x, hx, -⟩ := List.map_eq_singleton_iff.mp ht
    exact absurd hx (hseveral x)

theorem widen_runs (ty : Ty) (id : Id) (width : Option Dim) : (widen ty id width).Runs b := by
  unfold widen
  split
  · exact splat_runs _ _
  · exact .pure _

/-- The call of a builtin function has code whatever its arguments are. -/
theorem builtinCall_runs (f : Signature) (arguments : List Id) :
    (builtinCall f arguments).Runs b := by
  refine Runs.bind (.mapM fun _ _ _ => widen_runs _ _ _) fun _ _ _ => ?_
  dsimp only
  split
  · exact emitExtended_runs _ _ _
  · exact emit_runs _ _ _

theorem functionCall_runs (f : Function) (arguments : List Id) :
    (functionCall f arguments).Runs b := by
  cases f with
  | builtin g => exact builtinCall_runs g arguments
  | constructor ty => exact emit_runs _ _ _

theorem selectComponents_runs (id : Id) (whole ty : Ty) (indexes : List Nat) :
    (selectComponents id whole ty indexes).Runs b := by
  unfold selectComponents
  split
  · exact .pure id
  all_goals exact emit_runs _ _ _

theorem replaceComponents_runs (whole : Ty) (indexes : List Nat) (current value : Id) :
    (replaceComponents whole indexes current value).Runs b := by
  unfold replaceComponents
  split
  all_goals exact emit_runs _ _ _

end Build

end ShaderExpr
