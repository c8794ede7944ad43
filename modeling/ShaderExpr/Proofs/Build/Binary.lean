import ShaderExpr.Proofs.Build.Operators

namespace ShaderExpr

open Typing

namespace Ty

/-- A matrix still floats over a component type that its own converts to. -/
theorem isProper_withComponent {ty : Ty} {l s : ScalarType} (proper : ty.isProper)
    (component : ty.component? = some l) (converts : l.convertsTo s) :
    (ty.withComponent s).isProper := by
  cases ty with
  | void | struct => simp [component?] at component
  | scalar | vector => rfl
  | matrix s' columns rows =>
    obtain rfl := Option.some.inj component
    exact ScalarType.isFloating_of_convertsTo converts proper

theorem isFloating_of_isMatrix {ty : Ty} {s : ScalarType} (proper : (ty.withComponent s).isProper)
    (h : ty.isMatrix) : s.isFloating := by
  cases ty with
  | void | scalar | vector | struct => simp [isMatrix] at h
  | matrix => exact proper

theorem isMatrix_withComponent (ty : Ty) (s : ScalarType) :
    (ty.withComponent s).isMatrix = ty.isMatrix := by
  cases ty <;> rfl

/-- Integral types are those of integers and of vectors of integers. -/
theorem lanes?_of_isIntegral {ty : Ty} (h : Operator.isIntegral ty) :
    ∃ s n, ty.lanes? = some (s, n) ∧ s.isInteger := by
  cases ty with
  | void | matrix | struct => simp [Operator.isIntegral] at h
  | scalar s => exact ⟨s, 1, rfl, h⟩
  | vector s n => exact ⟨s, n.toNat, rfl, h⟩

end Ty

theorem Operator.TermShape.isFloating {s : ScalarType} {left right ty : Ty}
    (h : TermShape s left right ty) (left_proper : (left.withComponent s).isProper)
    (right_proper : (right.withComponent s).isProper) (matrix : ty.isMatrix) : s.isFloating := by
  rcases h.any with hty | hty
  · refine Ty.isFloating_of_isMatrix left_proper ?_
    rwa [← left.isMatrix_withComponent s, hty]
  · refine Ty.isFloating_of_isMatrix right_proper ?_
    rwa [← right.isMatrix_withComponent s, hty]

namespace Build

open Builder

variable {xs : List Variable} {casts : Bool} {b b' : Builder}

/-- Both operands are converted before anything else is done with them. What follows is given
    operands of the types that they are converted to. -/
theorem withComponents_attains (hs : b.Sound xs casts) {l r : Operand} {s : ScalarType}
    {f : Operand → Operand → Build Id} {Q : Id → Builder → Prop}
    (left_basic : l.ty.isBasic) (right_basic : r.ty.isBasic)
    (left : (l.ty.withComponent s).isProper) (right : (r.ty.withComponent s).isProper)
    (hl : b.Typed l.id l.ty) (hr : b.Typed r.id r.ty)
    (h : ∀ l' r' b', b'.Sound xs casts → l'.ty = l.ty.withComponent s →
      r'.ty = r.ty.withComponent s → b'.Typed l'.id l'.ty → b'.Typed r'.id r'.ty →
      (f l' r').Attains xs casts b' Q) :
    (do
      let l ← withComponent l s
      let r ← withComponent r s
      f l r).Attains xs casts b Q := by
  refine (withComponent_attains hs left_basic s (Ty.isAllowed_of_isProper casts left) hl).bind
    fun l' b₁ hgrows₁ hs₁ ⟨hlty, hl'⟩ => ?_
  refine (withComponent_attains hs₁ right_basic s (Ty.isAllowed_of_isProper casts right)
    (hr.mono hgrows₁.includes)).bind fun r' b₂ hgrows₂ hs₂ ⟨hrty, hr'⟩ => ?_
  exact h l' r' b₂ hs₂ hlty hrty (hl'.mono hgrows₂.includes) hr'

/-- Sums, differences and quotients each have an opcode for every type of numbers. -/
theorem arithmeticOpcode?_form {op : Operator} {s : ScalarType} (family : op.family = .arithmetic)
    (number : s ≠ .bool) : ∃ opcode, arithmeticOpcode? op s = some opcode ∧
      ∃ k : Kind, k.admits s ∧ opcode.uniform? = some (k, 2) := by
  cases op <;> simp [Operator.family] at family <;> cases s <;>
    first
    | exact absurd rfl number
    | exact ⟨_, rfl, .integer, rfl, rfl⟩
    | exact ⟨_, rfl, .floating, rfl, rfl⟩
    | exact ⟨_, rfl, .unsigned, rfl, rfl⟩

theorem integerOpcode?_form {op : Operator} {s : ScalarType}
    (family : op.family = .modulo ∨ op.family = .bitwise) (integer : s.isInteger) :
    ∃ opcode, integerOpcode? op s = some opcode ∧
      ∃ k : Kind, k.admits s ∧ opcode.uniform? = some (k, 2) := by
  cases op <;> simp [Operator.family] at family <;> cases s <;>
    simp [ScalarType.isInteger] at integer <;>
    first
    | exact ⟨_, rfl, .integer, rfl, rfl⟩
    | exact ⟨_, rfl, .unsigned, rfl, rfl⟩

theorem relationOpcode?_form {op : Operator} {s : ScalarType} (family : op.family = .relational)
    (number : s ≠ .bool) : ∃ opcode, relationOpcode? op s = some opcode ∧
      ∃ k : Kind, k.admits s ∧ opcode.comparison? = some (k, 2) := by
  cases op <;> simp [Operator.family] at family <;> cases s <;>
    first
    | exact absurd rfl number
    | exact ⟨_, rfl, .integer, rfl, rfl⟩
    | exact ⟨_, rfl, .floating, rfl, rfl⟩

theorem logicalOpcode?_form {op : Operator} (family : op.family = .logical) :
    ∃ opcode, logicalOpcode? op = some opcode ∧ opcode.uniform? = some (.boolean, 2) := by
  cases op <;> simp [Operator.family] at family <;> exact ⟨_, rfl, rfl⟩

/-- Terms are combined component by component, and matrices column by column. The opcode must take
    operands and result of one kind, and the component type must be of this kind. -/
theorem terms_attains (hs : b.Sound xs casts) {op : Opcode} {k : Kind} {l r : Operand}
    {left right ty : Ty} {s : ScalarType} (form : op.uniform? = some (k, 2)) (kind : k.admits s)
    (shape : Operator.TermShape s left right ty) (allowed : ty.isAllowed casts)
    (hlty : l.ty = left.withComponent s) (hrty : r.ty = right.withComponent s)
    (hl : b.Typed l.id l.ty) (hr : b.Typed r.id r.ty) :
    (if ty.isMatrix then perColumn op ty l r else componentwise op ty l r).Attains xs casts b
      fun id b' => b'.Typed id ty := by
  obtain ⟨hleft, hright⟩ := shape.terms
  rw [← hlty] at hleft
  rw [← hrty] at hright
  split
  · rename_i hmatrix
    have hcomponent := shape.component
    cases ty with
    | void | scalar | vector | struct => simp [Ty.isMatrix] at hmatrix
    | matrix s' columns rows =>
      obtain rfl := Option.some.inj hcomponent
      exact perColumn_attains hs form kind allowed hleft hright hl hr
  · rename_i hplain
    obtain ⟨n, hlanes⟩ := Ty.lanes?_of_basic shape.basic shape.component (by simpa using hplain)
    exact componentwise_attains hs form hlanes kind hleft hright hl hr

theorem opcodeOf_some (op : Opcode) (s : ScalarType) : opcodeOf (some op) s = pure op := rfl

theorem arithmetic_attains (hs : b.Sound xs casts) {op : Operator} {l r : Operand}
    {left right ty : Ty} {s : ScalarType} (family : op.family = .arithmetic) (number : s ≠ .bool)
    (shape : Operator.TermShape s left right ty) (left_proper : (left.withComponent s).isProper)
    (right_proper : (right.withComponent s).isProper) (hlty : l.ty = left.withComponent s)
    (hrty : r.ty = right.withComponent s) (hl : b.Typed l.id l.ty) (hr : b.Typed r.id r.ty) :
    (arithmetic op ty l r).Attains xs casts b fun id b' => b'.Typed id ty := by
  have hproper : ty.isProper := by
    rcases shape.any with h | h
    · exact h ▸ left_proper
    · exact h ▸ right_proper
  unfold arithmetic
  split
  · -- A matrix takes part, so the result is a matrix, and its components float.
    rename_i hdivision
    obtain ⟨hleft, hright⟩ := shape.terms
    rw [← hlty] at hleft
    rw [← hrty] at hright
    have hmatrix : ty.isMatrix := by
      have hterm {t : Ty} (h : Ty.IsTerm s ty t) (ht : t.isMatrix) : ty.isMatrix := by
        rcases h with rfl | rfl
        · exact ht
        · simp [Ty.isMatrix] at ht
      rcases Bool.or_eq_true_iff.mp hdivision.2 with h | h
      · exact hterm hleft h
      · exact hterm hright h
    have hfloating := shape.isFloating left_proper right_proper hmatrix
    have hcomponent := shape.component
    have hany := shape.any
    rw [← hlty, ← hrty] at hany
    cases ty with
    | void | scalar | vector | struct => simp [Ty.isMatrix] at hmatrix
    | matrix s' columns rows =>
      obtain rfl := Option.some.inj hcomponent
      exact matrixDivision_attains hs hfloating hleft hright hany hl hr
  · obtain ⟨opcode, hopcode, k, hk, hform⟩ := arithmeticOpcode?_form family number
    rw [componentOf_eq shape.component, pure_bind, hopcode, opcodeOf_some, pure_bind]
    exact terms_attains hs hform hk shape (Ty.isAllowed_of_isProper casts hproper) hlty hrty hl hr

/-- Scalars and vectors are compared as a whole. -/
theorem vectorEquality_attains (hs : b.Sound xs casts) {equal : Bool} {ty : Ty} {s : ScalarType}
    {n : Nat} {l r : Id} (lanes : ty.lanes? = some (s, n)) (hl : b.Typed l ty) (hr : b.Typed r ty) :
    (vectorEquality equal ty l r).Attains xs casts b fun id b' => b'.Typed id (.scalar .bool) := by
  -- Truth values are compared by an operation on them, and numbers by a comparison.
  have hcompare : (emit (equalityOpcode equal ty.component?) ty.truths [l, r]).Attains xs casts b
      fun id b' => b'.Typed id ty.truths := by
    have htyped : ∀ x ∈ [l, r], b.Typed x ty := by simpa using ⟨hl, hr⟩
    rw [Ty.component?_of_lanes? lanes]
    by_cases hbool : s = .bool
    · subst hbool
      have htruths : ty.truths = ty := Ty.eq_of_lanes? (Ty.lanes?_truths lanes) lanes
      rw [htruths]
      cases equal with
      | true =>
        exact emit_uniform hs (show Opcode.logicalEqual.uniform? = some (.boolean, 2) from rfl)
          lanes rfl htyped
      | false =>
        exact emit_uniform hs (show Opcode.logicalNotEqual.uniform? = some (.boolean, 2) from rfl)
          lanes rfl htyped
    · have hform : ∃ k : Kind, k.admits s ∧
          (equalityOpcode equal (some s)).comparison? = some (k, 2) := by
        cases equal <;> cases s <;>
          first
          | exact absurd rfl hbool
          | exact ⟨.integer, rfl, rfl⟩
          | exact ⟨.floating, rfl, rfl⟩
      obtain ⟨k, hk, hform⟩ := hform
      exact emit_comparison hs hform lanes hk htyped (List.cons_ne_nil _ _)
  cases ty with
  | void | matrix | struct => simp [Ty.lanes?] at lanes
  | scalar s' => exact hcompare
  | vector s' m =>
    refine hcompare.bind fun components b₁ _ hs₁ hcomponents => ?_
    refine emit_quantifier hs₁ ?_ hcomponents
    cases equal <;> simp

/-- The columns behind those that were compared are compared one after the other, by induction on
    their number. `sofar` is the outcome of those in front. -/
theorem columnsEquality_attains {equal : Bool} {s : ScalarType} {columns rows : Dim} {l r : Id}
    {count i : Nat} {sofar : Id} (hs : b.Sound xs casts) (inside : i + count ≤ columns.toNat)
    (hl : b.Typed l (.matrix s columns rows)) (hr : b.Typed r (.matrix s columns rows))
    (hsofar : b.Typed sofar (.scalar .bool)) :
    (columnsEquality equal (.vector s rows) l r count i sofar).Attains xs casts b
      fun id b' => b'.Typed id (.scalar .bool) := by
  induction count generalizing b i sofar with
  | zero => exact .pure hs hsofar
  | succ count ih =>
    have hi : i < columns.toNat := by omega
    unfold columnsEquality
    refine (emit_column hs hi hl).bind fun x b₁ hgrows₁ hs₁ hx => ?_
    refine (emit_column hs₁ hi (hr.mono hgrows₁.includes)).bind fun y b₂ hgrows₂ hs₂ hy => ?_
    refine (vectorEquality_attains hs₂ rfl (hx.mono hgrows₂.includes) hy).bind
      fun same b₃ hgrows₃ hs₃ hsame => ?_
    have hgrows := (hgrows₁.trans hgrows₂).trans hgrows₃
    have hboth : ∀ x ∈ [sofar, same], b₃.Typed x (.scalar .bool) := by
      simpa using ⟨hsofar.mono hgrows.includes, hsame⟩
    have hform : (if equal then Opcode.logicalAnd else .logicalOr).uniform? =
        some (.boolean, [sofar, same].length) := by
      cases equal <;> rfl
    refine (emit_uniform (s := .bool) (n := 1) hs₃ hform rfl rfl hboth).bind
      fun both b₄ hgrows₄ hs₄ hboth => ?_
    have hgrows' := hgrows.trans hgrows₄
    exact ih hs₄ (by omega) (hl.mono hgrows'.includes) (hr.mono hgrows'.includes) hboth

theorem equality_attains (hs : b.Sound xs casts) {equal : Bool} {ty : Ty} {l r : Id}
    (basic : ty.isBasic) (hl : b.Typed l ty) (hr : b.Typed r ty) :
    (equality equal ty l r).Attains xs casts b fun id b' => b'.Typed id (.scalar .bool) := by
  cases ty with
  | void | struct => simp [Ty.isBasic] at basic
  | scalar | vector => exact vectorEquality_attains hs rfl hl hr
  | matrix s columns rows =>
    have hbounds := columns.toNat_bounds
    refine (emit_column (i := 0) hs (by omega) hl).bind fun x b₁ hgrows₁ hs₁ hx => ?_
    refine (emit_column (i := 0) hs₁ (by omega) (hr.mono hgrows₁.includes)).bind
      fun y b₂ hgrows₂ hs₂ hy => ?_
    refine (vectorEquality_attains hs₂ rfl (hx.mono hgrows₂.includes) hy).bind
      fun first b₃ hgrows₃ hs₃ hfirst => ?_
    have hgrows := (hgrows₁.trans hgrows₂).trans hgrows₃
    exact columnsEquality_attains hs₃ (by omega) (hl.mono hgrows.includes)
      (hr.mono hgrows.includes) hfirst

/-- The components of a vector are shifted by as many amounts: a single amount is repeated. A vector
    of amounts never meets a single value, as the check demands. -/
theorem shiftAmount_attains (hs : b.Sound xs casts) {l r : Operand} {s : ScalarType} {n : Nat}
    (lanes : l.ty.lanes? = some (s, n)) (right : Operator.isIntegral r.ty)
    (shape : (∃ s, r.ty = .scalar s) ∨ ∃ s s' n, l.ty = .vector s n ∧ r.ty = .vector s' n)
    (hr : b.Typed r.id r.ty) :
    (shiftAmount l r).Attains xs casts b fun id b' =>
      ∃ ty s, b'.Typed id ty ∧ ty.lanes? = some (s, n) ∧ s.isInteger := by
  obtain ⟨x, lty⟩ := l
  obtain ⟨y, rty⟩ := r
  dsimp only at lanes right shape hr
  rcases shape with ⟨t, rfl⟩ | ⟨_, t, m, rfl, rfl⟩
  · cases lty with
    | void | matrix | struct => simp [Ty.lanes?] at lanes
    | scalar s' =>
      obtain ⟨-, rfl⟩ := Prod.mk.inj (Option.some.inj lanes)
      exact .pure hs ⟨_, t, hr, rfl, right⟩
    | vector s' m =>
      obtain ⟨-, rfl⟩ := Prod.mk.inj (Option.some.inj lanes)
      have hsplat : (splat y (.vector t m)).Attains xs casts b
          fun id b' => b'.Typed id (.vector t m) := splat_attains hs rfl hr
      exact hsplat.mono fun id b' _ _ hid => ⟨_, t, hid, rfl, right⟩
  · obtain ⟨-, rfl⟩ := Prod.mk.inj (Option.some.inj lanes)
    exact .pure hs ⟨_, t, hr, rfl, right⟩

theorem shiftOpcode_form (op : Operator) (s : Option ScalarType) : (shiftOpcode op s).isShift := by
  unfold shiftOpcode
  split
  · rfl
  · split <;> rfl

theorem commonOf_eq {l r : Operand} {s : ScalarType} (h : commonComponent l.ty r.ty = .ok s) :
    commonOf l r = pure s := by
  rw [commonOf, h]

/-- What two operands have in common is a component type that both keep their form over. Matrices
    only float, and a component type in common with one floats as well. -/
theorem commonComponent_proper {left right : Ty} {s : ScalarType}
    (common : commonComponent left right = .ok s) (left_proper : left.isProper)
    (right_proper : right.isProper) : left.isBasic ∧ right.isBasic ∧
      (left.withComponent s).isProper ∧ (right.withComponent s).isProper := by
  obtain ⟨l, r, hl, hr, hls, hrs⟩ := commonComponent_eq_ok common
  exact ⟨Ty.isBasic_of_component? hl, Ty.isBasic_of_component? hr,
    Ty.isProper_withComponent left_proper hl hls, Ty.isProper_withComponent right_proper hr hrs⟩

/-- Types that are compared have a common component type, over which they are the same. -/
theorem commonComponent_of_convertsTo {left right : Ty} (basic : left.isBasic)
    (comparable : left.convertsTo right ∨ right.convertsTo left) :
    ∃ s, commonComponent left right = .ok s ∧ left.withComponent s = right.withComponent s := by
  have hcommon {l r : ScalarType} (hleft : left.component? = some l)
      (hright : right.component? = some r) (h : l.convertsTo r ∨ r.convertsTo l) :
      ∃ s, commonComponent left right = .ok s := by
    unfold commonComponent
    rw [hleft, hright]
    dsimp only
    split
    · exact ⟨r, rfl⟩
    · rename_i hne
      rw [if_pos (h.resolve_left hne)]
      exact ⟨l, rfl⟩
  cases left <;> cases right <;> simp only [Ty.convertsTo, Bool.and_eq_true, decide_eq_true_eq,
    Bool.false_eq_true, or_self] at comparable
  · obtain ⟨s, hs⟩ := hcommon rfl rfl comparable
    exact ⟨s, hs, rfl⟩
  · obtain ⟨s, hs⟩ := hcommon rfl rfl (comparable.imp And.right And.right)
    have hlength := comparable.elim And.left fun h => h.1.symm
    exact ⟨s, hs, by rw [Ty.withComponent, Ty.withComponent, hlength]⟩
  · obtain ⟨s, hs⟩ := hcommon rfl rfl (comparable.imp And.right And.right)
    have hsizes := comparable.elim And.left fun h => ⟨h.1.1.symm, h.1.2.symm⟩
    exact ⟨s, hs, by rw [Ty.withComponent, Ty.withComponent, hsizes.1, hsizes.2]⟩
  · simp [Ty.isBasic] at basic

theorem integral_attains (hs : b.Sound xs casts) {op : Operator} {l r : Operand}
    {left right ty : Ty} {s : ScalarType} (family : op.family = .modulo ∨ op.family = .bitwise)
    (integer : s.isInteger) (plain : ty.isMatrix = false)
    (shape : Operator.TermShape s left right ty) (hlty : l.ty = left.withComponent s)
    (hrty : r.ty = right.withComponent s) (hl : b.Typed l.id l.ty) (hr : b.Typed r.id r.ty) :
    (integral op ty s l r).Attains xs casts b fun id b' => b'.Typed id ty := by
  obtain ⟨opcode, hopcode, k, hk, hform⟩ := integerOpcode?_form family integer
  obtain ⟨n, hlanes⟩ := Ty.lanes?_of_basic shape.basic shape.component plain
  obtain ⟨hleft, hright⟩ := shape.terms
  unfold integral
  rw [hopcode, opcodeOf_some, pure_bind]
  exact componentwise_attains hs hform hlanes hk (hlty ▸ hleft) (hrty ▸ hright) hl hr

theorem relation_attains (hs : b.Sound xs casts) {op : Operator} {l r : Operand} {s : ScalarType}
    (family : op.family = .relational) (number : s ≠ .bool) (hl : b.Typed l.id (.scalar s))
    (hr : b.Typed r.id (.scalar s)) :
    (relation op s l r).Attains xs casts b fun id b' => b'.Typed id (.scalar .bool) := by
  obtain ⟨opcode, hopcode, k, hk, hform⟩ := relationOpcode?_form family number
  unfold relation
  rw [hopcode, opcodeOf_some, pure_bind]
  have htyped : ∀ x ∈ [l.id, r.id], b.Typed x (.scalar s) := by simpa using ⟨hl, hr⟩
  exact emit_comparison hs hform rfl hk htyped (List.cons_ne_nil _ _)

/-- Integers and vectors of integers stay within the types of the language. -/
theorem integral_proper {ty : Ty} (h : Operator.isIntegral ty) (s : ScalarType) :
    ty.isBasic ∧ (ty.withComponent s).isProper ∧ ty.isMatrix = false := by
  cases ty with
  | void | matrix | struct => simp [Operator.isIntegral] at h
  | scalar | vector => exact ⟨rfl, rfl, rfl⟩

/-- The code of an operator gives a value of the type that the operator gives to its operands. These
    may have other component types than the one it works in. -/
theorem binary_attains (hs : b.Sound xs casts) {op : Operator} {ty : Ty} {l r : Operand}
    (typed : op.resultType l.ty r.ty = .ok ty) (left : l.ty.isProper) (right : r.ty.isProper)
    (hl : b.Typed l.id l.ty) (hr : b.Typed r.id r.ty) :
    (binary op ty l r).Attains xs casts b fun id b' => b'.Typed id ty := by
  obtain ⟨x, lty⟩ := l
  obtain ⟨y, rty⟩ := r
  dsimp only at typed left right hl hr
  have hrule := Operator.resultType_typed typed
  unfold binary
  generalize hfamily : op.family = family at hrule
  cases hrule with
  | @multiplication _ _ _ s number common shape =>
    obtain ⟨hleft, hright, hleft', hright'⟩ := commonComponent_proper common left right
    dsimp only
    rw [componentOf_eq shape.component, pure_bind]
    refine withComponents_attains hs hleft hright hleft' hright' hl hr
      fun l' r' b₁ hs₁ hlty hrty hl' hr' => ?_
    refine product_attains hs₁ number shape (fun h => ?_) hlty hrty hl' hr'
    rcases Bool.or_eq_true_iff.mp h with h | h
    · exact Ty.isFloating_of_isMatrix hleft' h
    · exact Ty.isFloating_of_isMatrix hright' h
  | @arithmetic _ _ _ s number common shape =>
    obtain ⟨hleft, hright, hleft', hright'⟩ := commonComponent_proper common left right
    dsimp only
    rw [componentOf_eq shape.component, pure_bind]
    exact withComponents_attains hs hleft hright hleft' hright' hl hr
      fun l' r' b₁ hs₁ hlty hrty hl' hr' =>
        arithmetic_attains hs₁ hfamily number shape hleft' hright' hlty hrty hl' hr'
  | @integer _ _ _ _ s integral left_integral right_integral integer shape =>
    obtain ⟨hleft, hleft', hplain⟩ := integral_proper left_integral s
    obtain ⟨hright, hright', hplain'⟩ := integral_proper right_integral s
    have hty : ty.isMatrix = false := by
      rcases shape.any with h | h
      · rw [← h, Ty.isMatrix_withComponent, hplain]
      · rw [← h, Ty.isMatrix_withComponent, hplain']
    have hcode : (do
        let s ← componentOf ty
        let l ← withComponent ⟨x, lty⟩ s
        let r ← withComponent ⟨y, rty⟩ s
        Build.integral op ty s l r).Attains xs casts b fun id b' => b'.Typed id ty := by
      rw [componentOf_eq shape.component, pure_bind]
      exact withComponents_attains hs hleft hright hleft' hright' hl hr
        fun l' r' b₁ hs₁ hlty hrty hl' hr' =>
          integral_attains hs₁ (hfamily ▸ integral) integer hty shape hlty hrty hl' hr'
    rcases integral with rfl | rfl
    · exact hcode
    · exact hcode
  | shift left_integral right_integral shape =>
    obtain ⟨s, n, hlanes, hinteger⟩ := Ty.lanes?_of_isIntegral left_integral
    refine (shiftAmount_attains hs hlanes right_integral shape hr).bind
      fun amount b₁ hgrows₁ hs₁ ⟨ty', s', hamount, hlanes', hinteger'⟩ => ?_
    exact emit_shift hs₁ (shiftOpcode_form op _) hlanes hlanes' hinteger hinteger'
      (hl.mono hgrows₁.includes) hamount
  | relational left_number right_number common =>
    obtain ⟨lc, rc, hlc, -, hls, -⟩ := commonComponent_eq_ok common
    have hnumber := ScalarType.ne_bool_of_convertsTo hls (Option.some.inj hlc ▸ left_number)
    dsimp only
    rw [commonOf_eq common, pure_bind]
    refine withComponents_attains hs rfl rfl rfl rfl hl hr fun l' r' b₁ hs₁ hlty hrty hl' hr' => ?_
    rw [hlty] at hl'
    rw [hrty] at hr'
    exact relation_attains hs₁ hfamily hnumber hl' hr'
  | equality left_basic right_basic comparable =>
    obtain ⟨s, hcommon, hsame⟩ := commonComponent_of_convertsTo left_basic comparable
    obtain ⟨hleft, hright, hleft', hright'⟩ := commonComponent_proper hcommon left right
    dsimp only
    rw [commonOf_eq hcommon, pure_bind]
    refine withComponents_attains hs hleft hright hleft' hright' hl hr
      fun l' r' b₁ hs₁ hlty hrty hl' hr' => ?_
    refine equality_attains hs₁ (hlty ▸ Ty.isBasic_withComponent hleft s) hl' ?_
    rw [hlty, hsame, ← hrty]
    exact hr'
  | logical =>
    obtain ⟨opcode, hopcode, hform⟩ := logicalOpcode?_form hfamily
    dsimp only
    rw [hopcode, opcodeOf_some, pure_bind]
    refine emit_uniform (n := 1) hs hform rfl rfl ?_
    simpa using ⟨hl, hr⟩

theorem negation_matrix [Limits] (s : ScalarType) (columns rows : Dim) (x : Id) :
    negation ⟨x, .matrix s columns rows⟩ = (do
      let parts ← (List.range columns.toNat).mapM fun i => do
        let c ← emit .compositeExtract (.vector s rows) [x, UInt32.ofNat i]
        emit (if s.isFloating then .fNegate else .sNegate) (.vector s rows) [c]
      emit .compositeConstruct (.matrix s columns rows) parts) := rfl

/-- Numbers have an opcode that changes their sign. -/
theorem negateOpcode_form {s : ScalarType} (number : s ≠ .bool) : ∃ k : Kind, k.admits s ∧
    (if s.isFloating then Opcode.fNegate else .sNegate).uniform? = some (k, 1) := by
  split
  · rename_i hfloating
    exact ⟨.floating, hfloating, rfl⟩
  · rename_i hfloating
    exact ⟨.integer, ScalarType.isInteger_of_number number hfloating, rfl⟩

theorem negation_attains (hs : b.Sound xs casts) {x : Operand} (proper : x.ty.isProper)
    (basic : x.ty.isBasic) (number : x.ty.component? ≠ some .bool) (hx : b.Typed x.id x.ty) :
    (negation x).Attains xs casts b fun id b' => b'.Typed id x.ty := by
  obtain ⟨x, ty⟩ := x
  dsimp only at proper basic number hx ⊢
  cases ty with
  | void | struct => simp [Ty.isBasic] at basic
  | scalar s =>
    obtain ⟨k, hk, hform⟩ := negateOpcode_form (s := s) fun h => number (h ▸ rfl)
    exact emit_uniform hs hform rfl hk (by simpa using hx)
  | vector s n =>
    obtain ⟨k, hk, hform⟩ := negateOpcode_form (s := s) fun h => number (h ▸ rfl)
    exact emit_uniform hs hform rfl hk (by simpa using hx)
  | matrix s columns rows =>
    obtain ⟨k, hk, hform⟩ := negateOpcode_form (s := s) fun h => number (h ▸ rfl)
    rw [negation_matrix]
    refine (mapM_typed (t := .vector s rows) hs fun i hi b₁ hgrows₁ hs₁ => ?_).bind
      fun ids b₁ _ hs₁ hids => ?_
    · have hi : i < columns.toNat := List.mem_range.mp hi
      exact (emit_column hs₁ hi (hx.mono hgrows₁.includes)).bind
        fun c b₂ _ hs₂ hc => emit_uniform hs₂ hform rfl hk (by simpa using hc)
    · rw [List.length_range] at hids
      exact emit_construct hs₁ (Ty.isAllowed_of_isProper casts proper) rfl hids

end Build

end ShaderExpr
