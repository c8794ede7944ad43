import ShaderExpr.Proofs.Build.Variables

namespace ShaderExpr

open Typing

namespace Opcode

theorem resultPosition?_of_uniform? {op : Opcode} {form : Kind × Nat}
    (h : op.uniform? = some form) : op.resultPosition? = some 1 := by
  cases op <;> first | rfl | simp [uniform?] at h

theorem resultPosition?_of_comparison? {op : Opcode} {form : Kind × Nat}
    (h : op.comparison? = some form) : op.resultPosition? = some 1 := by
  cases op <;> first | rfl | simp [comparison?] at h

theorem resultPosition?_of_conversion? {op : Opcode} {form : Kind × Kind}
    (h : op.conversion? = some form) : op.resultPosition? = some 1 := by
  cases op <;> first | rfl | simp [conversion?] at h

theorem resultPosition?_of_isShift {op : Opcode} (h : op.isShift) :
    op.resultPosition? = some 1 := by
  cases op <;> first | rfl | simp [isShift] at h

end Opcode

namespace Ty

theorem isAllowed_of_lanes? {ty : Ty} {lanes : ScalarType × Nat} (h : ty.lanes? = some lanes)
    (casts : Bool) : ty.isAllowed casts := by
  cases ty <;> first | rfl | simp [lanes?] at h

/-- The type of as many truth values as a scalar or vector type has components. -/
def truths : Ty → Ty
  | .vector _ n => .vector .bool n
  | _ => .scalar .bool

theorem lanes?_truths {ty : Ty} {s : ScalarType} {n : Nat} (h : ty.lanes? = some (s, n)) :
    ty.truths.lanes? = some (.bool, n) := by
  cases ty with
  | void | matrix | struct => simp [lanes?] at h
  | scalar | vector =>
    obtain ⟨-, hn⟩ := Prod.mk.inj (Option.some.inj h)
    exact congrArg (fun n => some (ScalarType.bool, n)) hn

end Ty

theorem ScalarType.result?_declaration (s : ScalarType) (t : Id) :
    (s.declaration t).result? = some t := by
  cases s <;> rfl

namespace Builder

variable {xs : List Variable} {casts : Bool} {b b' : Builder}

theorem Typed.lookup {id : Id} {ty : Ty} (h : b.Typed id ty) (hgrows : b.Grows b') :
    ∃ t, b'.types.lookup ty = some t ∧ HasType b'.emitted id t :=
  h.mono hgrows.includes

/-- Types that are declared under one id have one component type. -/
theorem Sound.eq_of_lanes (hs : b.Sound xs casts) {ty ty' : Ty} {t : Id} {s s' : ScalarType}
    {n n' : Nat} (ht : b.types.lookup ty = some t) (ht' : b.types.lookup ty' = some t)
    (lanes : ty.lanes? = some (s, n)) (lanes' : ty'.lanes? = some (s', n')) : s = s' := by
  have hunique {i j : Instruction} (hi : i ∈ b.front) (hj : j ∈ b.front) {r : Id}
      (hir : i.result? = some r) (hjr : j.result? = some r) : i = j :=
    hs.typed.unique (b.front_subset_emitted hi) (b.front_subset_emitted hj) hir hjr
  have hscalar {s s' : ScalarType} {t : Id} (h : s.declaration t ∈ b.front)
      (h' : s'.declaration t ∈ b.front) : s = s' := by
    have heq := hunique h h' (ScalarType.result?_declaration s t)
      (ScalarType.result?_declaration s' t)
    cases s <;> cases s' <;> first | rfl | simp [ScalarType.declaration] at heq
  cases ty with
  | void | matrix | struct => simp [Ty.lanes?] at lanes
  | scalar u =>
    obtain ⟨rfl, -⟩ := Prod.mk.inj (Option.some.inj lanes)
    have hdeclared : u.declaration t ∈ b.front := hs.types _ _ ht
    cases ty' with
    | void | matrix | struct => simp [Ty.lanes?] at lanes'
    | scalar u' =>
      obtain ⟨rfl, -⟩ := Prod.mk.inj (Option.some.inj lanes')
      exact hscalar hdeclared (hs.types _ _ ht')
    | vector u' m =>
      obtain ⟨c, -, -, hvector⟩ := hs.vectorType ht'
      have heq := hunique hdeclared hvector (ScalarType.result?_declaration u t) rfl
      cases u <;> simp [ScalarType.declaration] at heq
  | vector u m =>
    obtain ⟨rfl, -⟩ := Prod.mk.inj (Option.some.inj lanes)
    obtain ⟨c, -, hcomponent, hvector⟩ := hs.vectorType ht
    cases ty' with
    | void | matrix | struct => simp [Ty.lanes?] at lanes'
    | scalar u' =>
      have hdeclared : u'.declaration t ∈ b.front := hs.types _ _ ht'
      have heq := hunique hdeclared hvector (ScalarType.result?_declaration u' t) rfl
      cases u' <;> simp [ScalarType.declaration] at heq
    | vector u' m' =>
      obtain ⟨rfl, -⟩ := Prod.mk.inj (Option.some.inj lanes')
      obtain ⟨c', -, hcomponent', hvector'⟩ := hs.vectorType ht'
      have heq := hunique hvector hvector' rfl rfl
      simp only [Instruction.mk.injEq, List.cons.injEq, true_and] at heq
      obtain ⟨rfl, -⟩ := heq
      exact hscalar hcomponent hcomponent'

/-- A vector type over floating components, and what it is declared with. -/
theorem Sound.floatingVector (hs : b.Sound xs casts) {s : ScalarType} (floating : s.isFloating)
    {n : Dim} {t : Id} (ht : b.types.lookup (.vector s n) = some t) :
    ∃ c, b.types.lookup (.scalar s) = some c ∧
      ⟨.typeVector, [t, c, UInt32.ofNat n.toNat]⟩ ∈ b.emitted ∧ IsScalar b.emitted .floating c := by
  obtain ⟨c, hc, -, hdeclared⟩ := hs.vectorType ht
  have hscalar : IsScalar b.front .floating c := hs.isScalar (k := .floating) hc floating
  exact ⟨c, hc, b.front_subset_emitted hdeclared, hscalar.mono b.front_subset_emitted⟩

/-- A matrix type over floating components, and what it is declared with. -/
theorem Sound.floatingMatrix (hs : b.Sound xs casts) {s : ScalarType} (floating : s.isFloating)
    {columns rows : Dim} {t : Id} (ht : b.types.lookup (.matrix s columns rows) = some t) :
    ∃ c d, b.types.lookup (.scalar s) = some d ∧ b.types.lookup (.vector s rows) = some c ∧
      ⟨.typeMatrix, [t, c, UInt32.ofNat columns.toNat]⟩ ∈ b.emitted ∧
      ⟨.typeVector, [c, d, UInt32.ofNat rows.toNat]⟩ ∈ b.emitted ∧
      IsScalar b.emitted .floating d := by
  obtain ⟨c, hc, hdeclared⟩ := hs.matrixType ht
  obtain ⟨d, hd, hvector, hscalar⟩ := hs.floatingVector floating hc
  exact ⟨c, d, hd, hc, b.front_subset_emitted hdeclared, hvector, hscalar⟩

theorem forall_hasType {operands : List Id} {ty : Ty} {t : Id} (hgrows : b.Grows b')
    (h : ∀ x ∈ operands, b.Typed x ty) (ht : b'.types.lookup ty = some t) :
    ∀ x ∈ operands, HasType b'.emitted x t :=
  fun x hx => ((h x hx).mono hgrows.includes).hasType ht

end Builder

theorem map_toNat_ofNat {indexes : List Nat} (small : ∀ i ∈ indexes, i < 4294967296) :
    (indexes.map UInt32.ofNat).map (·.toNat) = indexes := by
  rw [List.map_map]
  conv_rhs => rw [← List.map_id indexes]
  refine List.map_congr_left fun i hi => ?_
  exact UInt32.toNat_ofNat_of_lt' (small i hi)

namespace Build

open Builder

variable {xs : List Variable} {casts : Bool} {b b' : Builder}

section

variable {op : Opcode} {k k' : Kind} {s s' : ScalarType} {n : Nat}

theorem emit_uniform (hs : b.Sound xs casts) {ty : Ty} {operands : List Id}
    (form : op.uniform? = some (k, operands.length)) (lanes : ty.lanes? = some (s, n))
    (kind : k.admits s) (typed : ∀ x ∈ operands, b.Typed x ty) :
    (emit op ty operands).Attains xs casts b fun id b' => b'.Typed id ty := by
  refine emit_attains hs (Ty.isAllowed_of_lanes? lanes casts)
    (Opcode.resultPosition?_of_uniform? form) fun b' t id hgrows hs' ht => ?_
  exact .uniform form (hs'.lanes ht lanes kind) (forall_hasType hgrows typed ht)

theorem emit_comparison (hs : b.Sound xs casts) {ty : Ty} {operands : List Id}
    (form : op.comparison? = some (k, operands.length)) (lanes : ty.lanes? = some (s, n))
    (kind : k.admits s) (typed : ∀ x ∈ operands, b.Typed x ty) (any : operands ≠ []) :
    (emit op ty.truths operands).Attains xs casts b fun id b' => b'.Typed id ty.truths := by
  have htruths := Ty.lanes?_truths lanes
  refine emit_attains hs (Ty.isAllowed_of_lanes? htruths casts)
    (Opcode.resultPosition?_of_comparison? form) fun b' t id hgrows hs' ht => ?_
  obtain ⟨x, hx⟩ := List.exists_mem_of_ne_nil operands any
  obtain ⟨u, hu, -⟩ := (typed x hx).lookup hgrows
  exact .comparison form (hs'.lanes ht htruths rfl) (hs'.lanes hu lanes kind)
    (forall_hasType hgrows typed hu)

theorem emit_conversion (hs : b.Sound xs casts) {source target : Ty} {x : Id}
    (form : op.conversion? = some (k, k')) (lanes : source.lanes? = some (s, n))
    (lanes' : target.lanes? = some (s', n)) (kind : k.admits s) (kind' : k'.admits s')
    (different : s ≠ s') (typed : b.Typed x source) :
    (emit op target [x]).Attains xs casts b fun id b' => b'.Typed id target := by
  refine emit_attains hs (Ty.isAllowed_of_lanes? lanes' casts)
    (Opcode.resultPosition?_of_conversion? form) fun b' t id hgrows hs' ht => ?_
  obtain ⟨u, hu, hx⟩ := typed.lookup hgrows
  refine .conversion form (hs'.lanes ht lanes' kind') (hs'.lanes hu lanes kind) hx ?_
  rintro rfl
  exact different (hs'.eq_of_lanes hu ht lanes lanes')

/-- Conversion between the floating component types. The instruction refuses operands of the
    result's own width, so the widths must differ. -/
theorem emit_fConvert (hs : b.Sound xs casts) {source target : Ty} {x : Id} {width width' : UInt32}
    (lanes : source.lanes? = some (s, n)) (lanes' : target.lanes? = some (s', n))
    (kind : (Kind.float width).admits s) (kind' : (Kind.float width').admits s')
    (different : width ≠ width') (typed : b.Typed x source) :
    (emit .fConvert target [x]).Attains xs casts b fun id b' => b'.Typed id target := by
  refine emit_attains hs (Ty.isAllowed_of_lanes? lanes' casts) rfl fun b' t id hgrows hs' ht => ?_
  obtain ⟨u, hu, hx⟩ := typed.lookup hgrows
  exact .fConvert (hs'.lanes ht lanes' kind') (hs'.lanes hu lanes kind) hx different

theorem emit_shift (hs : b.Sound xs casts) {base amount : Ty} {x y : Id} (form : op.isShift)
    (lanes : base.lanes? = some (s, n)) (lanes' : amount.lanes? = some (s', n))
    (kind : s.isInteger) (kind' : s'.isInteger) (hx : b.Typed x base) (hy : b.Typed y amount) :
    (emit op base [x, y]).Attains xs casts b fun id b' => b'.Typed id base := by
  refine emit_attains hs (Ty.isAllowed_of_lanes? lanes casts)
    (Opcode.resultPosition?_of_isShift form) fun b' t id hgrows hs' ht => ?_
  obtain ⟨u, hu, hamount⟩ := hy.lookup hgrows
  exact .shift form (hs'.lanes ht lanes kind) ((hx.mono hgrows.includes).hasType ht)
    (hs'.lanes hu lanes' kind') hamount

theorem emit_select (hs : b.Sound xs casts) {ty : Ty} {x y z : Id}
    (lanes : ty.lanes? = some (s, n)) (hx : b.Typed x ty.truths) (hy : b.Typed y ty)
    (hz : b.Typed z ty) :
    (emit .select ty [x, y, z]).Attains xs casts b fun id b' => b'.Typed id ty := by
  refine emit_attains hs (Ty.isAllowed_of_lanes? lanes casts) rfl fun b' t id hgrows hs' ht => ?_
  obtain ⟨u, hu, hcondition⟩ := hx.lookup hgrows
  exact .select (hs'.lanes ht lanes (Kind.admits_of s)) hcondition
    (hs'.lanes hu (Ty.lanes?_truths lanes) rfl) ((hy.mono hgrows.includes).hasType ht)
    ((hz.mono hgrows.includes).hasType ht)

/-- A composite value of parts: each part has the type that the composite has there. -/
theorem emit_construct (hs : b.Sound xs casts) {ty : Ty} {parts : List Id}
    (allowed : ty.isAllowed casts) (composite : ty.isScalar = false)
    (typed : List.Forall₂ b.Typed parts ty.partTypes) :
    (emit .compositeConstruct ty parts).Attains xs casts b fun id b' => b'.Typed id ty := by
  refine emit_attains hs allowed rfl fun b' t id hgrows hs' ht => ?_
  obtain ⟨us, hus, hdeclared⟩ := hs'.parts ht composite
  refine .compositeConstruct (hus.mono b'.front_subset_emitted) (forall₂_hasType ?_ hdeclared)
  exact typed.imp fun id u h => h.lookup hgrows

/-- A part of a composite value. Indexes are written as words, so they must be small enough to be
    read back. -/
theorem emit_extract (hs : b.Sound xs casts) {whole ty : Ty} {x : Id} {indexes : List Nat}
    (allowed : ty.isAllowed casts) (small : ∀ i ∈ indexes, i < 4294967296)
    (inside : whole.at? indexes = some ty) (typed : b.Typed x whole) :
    (emit .compositeExtract ty (x :: indexes.map UInt32.ofNat)).Attains xs casts b
      fun id b' => b'.Typed id ty := by
  refine emit_attains hs allowed rfl fun b' t id hgrows hs' ht => ?_
  obtain ⟨u, hu, hx⟩ := typed.lookup hgrows
  obtain ⟨c, hc, hpath⟩ := hs'.path hu inside
  rw [ht] at hc
  obtain rfl := Option.some.inj hc
  refine .compositeExtract hx ?_
  rw [map_toNat_ofNat small]
  exact hpath.mono b'.front_subset_emitted

/-- A value with one of its parts replaced by a value of the type of that part. -/
theorem emit_insert (hs : b.Sound xs casts) {whole ty : Ty} {x y : Id} {indexes : List Nat}
    (allowed : whole.isAllowed casts) (small : ∀ i ∈ indexes, i < 4294967296)
    (inside : whole.at? indexes = some ty) (part : b.Typed x ty) (typed : b.Typed y whole) :
    (emit .compositeInsert whole (x :: y :: indexes.map UInt32.ofNat)).Attains xs casts b
      fun id b' => b'.Typed id whole := by
  refine emit_attains hs allowed rfl fun b' t id hgrows hs' ht => ?_
  obtain ⟨u, hu, hx⟩ := part.lookup hgrows
  obtain ⟨c, hc, hpath⟩ := hs'.path ht inside
  rw [hu] at hc
  obtain rfl := Option.some.inj hc
  refine .compositeInsert hx ((typed.mono hgrows.includes).hasType ht) ?_
  rw [map_toNat_ofNat small]
  exact hpath.mono b'.front_subset_emitted

/-- A vector of components of two vectors, which are numbered one behind the other. -/
theorem emit_shuffle (hs : b.Sound xs casts) {m k n : Dim} {x y : Id} {indexes : List Nat}
    (count : indexes.length = n.toNat) (inside : ∀ i ∈ indexes, i < m.toNat + k.toNat)
    (left : b.Typed x (.vector s m)) (right : b.Typed y (.vector s k)) :
    (emit .vectorShuffle (.vector s n) (x :: y :: indexes.map UInt32.ofNat)).Attains xs casts b
      fun id b' => b'.Typed id (.vector s n) := by
  refine emit_attains hs rfl rfl fun b' t id hgrows hs' ht => ?_
  obtain ⟨u, hu, hx⟩ := left.lookup hgrows
  obtain ⟨v, hv, hy⟩ := right.lookup hgrows
  obtain ⟨c, hc, -, hdeclared⟩ := hs'.vectorType ht
  obtain ⟨c₁, hc₁, -, hdeclared₁⟩ := hs'.vectorType hu
  obtain ⟨c₂, hc₂, -, hdeclared₂⟩ := hs'.vectorType hv
  rw [hc] at hc₁ hc₂
  obtain rfl := Option.some.inj hc₁
  obtain rfl := Option.some.inj hc₂
  refine .vectorShuffle (b'.front_subset_emitted hdeclared) ?_ hx
    (b'.front_subset_emitted hdeclared₁) hy (b'.front_subset_emitted hdeclared₂) fun i hi => ?_
  · rw [List.length_map, count, n.toNat_ofNat]
  · obtain ⟨j, hj, rfl⟩ := List.mem_map.mp hi
    have hlt := inside j hj
    have hm := m.toNat_bounds
    have hk := k.toNat_bounds
    have hsmall : j < UInt32.size := Nat.lt_of_lt_of_le hlt (by simp only [UInt32.size]; omega)
    rw [m.toNat_ofNat, k.toNat_ofNat, UInt32.toNat_ofNat_of_lt' hsmall]
    exact hlt

section

variable (hs : b.Sound xs casts) (floating : s.isFloating) {columns rows inner : Dim} {x y : Id}

include hs floating

theorem emit_vectorTimesScalar {n : Dim} (left : b.Typed x (.vector s n))
    (right : b.Typed y (.scalar s)) :
    (emit .vectorTimesScalar (.vector s n) [x, y]).Attains xs casts b
      fun id b' => b'.Typed id (.vector s n) := by
  refine emit_attains hs rfl rfl fun b' t id hgrows hs' ht => ?_
  obtain ⟨c, hc, hvector, hscalar⟩ := hs'.floatingVector floating ht
  exact .vectorTimesScalar hvector hscalar ((left.mono hgrows.includes).hasType ht)
    ((right.mono hgrows.includes).hasType hc)

theorem emit_dot {n : Dim} (left : b.Typed x (.vector s n)) (right : b.Typed y (.vector s n)) :
    (emit .dot (.scalar s) [x, y]).Attains xs casts b fun id b' => b'.Typed id (.scalar s) := by
  refine emit_attains hs rfl rfl fun b' t id hgrows hs' ht => ?_
  obtain ⟨u, hu, hx⟩ := left.lookup hgrows
  obtain ⟨c, hc, hvector, hscalar⟩ := hs'.floatingVector floating hu
  obtain rfl := Option.some.inj (ht.symm.trans hc)
  exact .dot hvector hscalar hx ((right.mono hgrows.includes).hasType hu)

theorem emit_matrixTimesScalar (left : b.Typed x (.matrix s columns rows))
    (right : b.Typed y (.scalar s)) :
    (emit .matrixTimesScalar (.matrix s columns rows) [x, y]).Attains xs casts b
      fun id b' => b'.Typed id (.matrix s columns rows) := by
  have hproper : (Ty.matrix s columns rows).isProper := floating
  refine emit_attains hs (Ty.isAllowed_of_isProper casts hproper) rfl
    fun b' t id hgrows hs' ht => ?_
  obtain ⟨c, d, hd, -, hmatrix, hvector, hscalar⟩ := hs'.floatingMatrix floating ht
  exact .matrixTimesScalar hmatrix hvector hscalar ((left.mono hgrows.includes).hasType ht)
    ((right.mono hgrows.includes).hasType hd)

theorem emit_vectorTimesMatrix (left : b.Typed x (.vector s rows))
    (right : b.Typed y (.matrix s columns rows)) :
    (emit .vectorTimesMatrix (.vector s columns) [x, y]).Attains xs casts b
      fun id b' => b'.Typed id (.vector s columns) := by
  refine emit_attains hs rfl rfl fun b' t id hgrows hs' ht => ?_
  obtain ⟨u, hu, hx⟩ := left.lookup hgrows
  obtain ⟨v, hv, hy⟩ := right.lookup hgrows
  obtain ⟨d, hd, hresult, hscalar⟩ := hs'.floatingVector floating ht
  obtain ⟨c, d', hd', hc, hmatrix, hcolumn, -⟩ := hs'.floatingMatrix floating hv
  obtain rfl := Option.some.inj (hd.symm.trans hd')
  obtain rfl := Option.some.inj (hu.symm.trans hc)
  exact .vectorTimesMatrix hresult hscalar hx hcolumn hy hmatrix hcolumn

theorem emit_matrixTimesVector (left : b.Typed x (.matrix s columns rows))
    (right : b.Typed y (.vector s columns)) :
    (emit .matrixTimesVector (.vector s rows) [x, y]).Attains xs casts b
      fun id b' => b'.Typed id (.vector s rows) := by
  refine emit_attains hs rfl rfl fun b' t id hgrows hs' ht => ?_
  obtain ⟨u, hu, hx⟩ := left.lookup hgrows
  obtain ⟨v, hv, hy⟩ := right.lookup hgrows
  obtain ⟨d, hd, hresult, hscalar⟩ := hs'.floatingVector floating ht
  obtain ⟨c, d', hd', hc, hmatrix, hcolumn, -⟩ := hs'.floatingMatrix floating hu
  obtain ⟨d'', hd'', hvector, -⟩ := hs'.floatingVector floating hv
  obtain rfl := Option.some.inj (hd.symm.trans hd')
  obtain rfl := Option.some.inj (hd.symm.trans hd'')
  exact .matrixTimesVector hresult hscalar hx hmatrix hcolumn hy hvector

theorem emit_matrixTimesMatrix (left : b.Typed x (.matrix s inner rows))
    (right : b.Typed y (.matrix s columns inner)) :
    (emit .matrixTimesMatrix (.matrix s columns rows) [x, y]).Attains xs casts b
      fun id b' => b'.Typed id (.matrix s columns rows) := by
  have hproper : (Ty.matrix s columns rows).isProper := floating
  refine emit_attains hs (Ty.isAllowed_of_isProper casts hproper) rfl
    fun b' t id hgrows hs' ht => ?_
  obtain ⟨u, hu, hx⟩ := left.lookup hgrows
  obtain ⟨v, hv, hy⟩ := right.lookup hgrows
  obtain ⟨c, d, hd, hc, hresult, hcolumn, hscalar⟩ := hs'.floatingMatrix floating ht
  obtain ⟨c', d', hd', hc', hleft, -, -⟩ := hs'.floatingMatrix floating hu
  obtain ⟨e, d'', hd'', -, hright, hcolumn', -⟩ := hs'.floatingMatrix floating hv
  obtain rfl := Option.some.inj (hc.symm.trans hc')
  obtain rfl := Option.some.inj (hd.symm.trans hd'')
  exact .matrixTimesMatrix hresult hcolumn hscalar hx hleft hy hright hcolumn'

end

/-- Do any or all components of a vector of truth values hold? -/
theorem emit_quantifier (hs : b.Sound xs casts) {n : Dim} {x : Id}
    (form : op = .anyTrue ∨ op = .allTrue) (typed : b.Typed x (.vector .bool n)) :
    (emit op (.scalar .bool) [x]).Attains xs casts b fun id b' => b'.Typed id (.scalar .bool) := by
  have hresult : op.resultPosition? = some 1 := by
    rcases form with rfl | rfl <;> rfl
  refine emit_attains hs rfl hresult fun b' t id hgrows hs' ht => ?_
  obtain ⟨u, hu, hx⟩ := typed.lookup hgrows
  obtain ⟨c, hc, hcomponent, hvector⟩ := hs'.vectorType hu
  have hboolean : IsScalar b'.front .boolean t := hs'.isScalar (k := .boolean) ht rfl
  exact .quantifier form (hboolean.mono b'.front_subset_emitted)
    (b'.front_subset_emitted hvector) (b'.front_subset_emitted hcomponent) hx

/-- An instruction of the extended set. The import of the set and the result type come first, so the
    rule is asked for in the state behind them. -/
theorem emitExtended_attains (hs : b.Sound xs casts) {op : ExtendedOp} {ty : Ty}
    {operands : List Id} (allowed : ty.isAllowed casts)
    (rule : ∀ b' t, b.Grows b' → b'.Sound xs casts → b'.types.lookup ty = some t →
      ExtendedRule b'.emitted op t operands) :
    (emitExtended ty (UInt32.ofNat op.number) operands).Attains xs casts b
      fun id b' => b'.Typed id ty := by
  refine (extendedSetId_attains hs).bind fun set b₁ hgrows₁ hs₁ himported => ?_
  refine emit_attains hs₁ allowed rfl fun b' t id hgrows hs' ht => ?_
  refine .extInst (b'.front_subset_emitted (hgrows.includes.front himported)) ?_
    (rule b' t (hgrows₁.trans hgrows) hs' ht)
  cases op <;> rfl

end

end Build

end ShaderExpr
