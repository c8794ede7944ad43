import ShaderExpr.Proofs.Expr.Checked
import ShaderExpr.Proofs.Expr.Operands

namespace ShaderExpr

namespace Value

@[simp] theorem ofComponents_ty (ty : Ty) (cs : List Scalar) : (ofComponents ty cs).ty = ty := by
  unfold ofComponents
  split <;> rfl

theorem ty_of_ofBytes? {ty : Ty} {data : List UInt8} {v : Value} (h : ofBytes? ty data = some v) :
    v.ty = ty := by
  unfold ofBytes? at h
  split at h
  · rw [← Option.some.inj h]
  · simp at h

theorem data_of_ofBytes? {ty : Ty} {data : List UInt8} {v : Value} (h : ofBytes? ty data = some v) :
    v.data = data := by
  unfold ofBytes? at h
  split at h
  · rw [← Option.some.inj h]
  · simp at h

/-- A value of a type that is put together from components. -/
def Made (ty : Ty) (v : Value) : Prop := ∃ cs, v = ofComponents ty cs

theorem Made.ty {ty : Ty} {v : Value} (h : Made ty v) : v.ty = ty := by
  obtain ⟨cs, rfl⟩ := h
  exact ofComponents_ty ty cs

theorem made_of_ofComponents? {ty : Ty} {cs : List Scalar} {v : Value}
    (h : ofComponents? ty cs = some v) : Made ty v := by
  unfold ofComponents? at h
  split at h
  · exact ⟨cs, (Option.some.inj h).symm⟩
  · simp at h

theorem ty_of_convert {v w : Value} {ty : Ty} (h : v.convert ty = .ok w) : w.ty = ty := by
  unfold convert at h
  split at h
  · rename_i hty
    rw [← Except.ok.inj h, hty]
  · split at h
    · rw [← Except.ok.inj h, ofComponents_ty]
    · simp at h

/-- Implicit conversions of types are conversions of values. -/
theorem convert_isSome {v : Value} {ty : Ty} (h : v.ty.convertsTo ty) :
    (v.convert ty).toOption.isSome := by
  unfold convert
  by_cases hty : v.ty = ty
  · rw [if_pos hty]
    rfl
  · rw [if_neg hty, if_pos]
    · rfl
    · generalize v.ty = t at h hty
      unfold Ty.convertsTo at h
      split at h
      · simp [Ty.isBasic, Ty.componentCount]
      · rename_i hsize
        simp_all [Ty.isBasic, Ty.componentCount]
      · simp_all [Ty.isBasic, Ty.componentCount]
      · simp_all
      · simp at h

theorem ty_of_convert_toOption {v w : Value} {ty : Ty} (h : (v.convert ty).toOption = some w) :
    w.ty = ty :=
  ty_of_convert (Except.toOption_eq_some.mp h)

theorem ty_of_ofMembers {ty : Ty} {values : List Value} {v : Value}
    (h : ofMembers ty values = .ok v) : v.ty = ty := by
  obtain ⟨converted, -, h⟩ := Except.bind_eq_ok.mp h
  simp only [ofData] at h
  split at h
  · simp at h
  · split at h
    · rename_i w hw
      rw [← Except.ok.inj h, ty_of_ofBytes? hw]
    · simp at h

end Value

namespace Folding

open Value (Made)

theorem made_of_componentwise {op : Operator} {ty : Ty} {l r v : Value}
    (h : componentwise op ty l r = .ok v) : Made ty v := by
  obtain ⟨results, -, hv⟩ := Except.bind_eq_ok.mp h
  exact ⟨results, (Except.ok.inj hv).symm⟩

theorem ty_of_componentwise {op : Operator} {ty : Ty} {l r v : Value}
    (h : componentwise op ty l r = .ok v) : v.ty = ty :=
  (made_of_componentwise h).ty

theorem made_of_product {s : ScalarType} {ty : Ty} {l r v : Value}
    (h : product s ty l r = .ok v) : Made ty v := by
  unfold product at h
  split at h
  · obtain ⟨results, -, hv⟩ := Except.bind_eq_ok.mp h
    split at hv
    · rename_i w hw
      rw [← Except.ok.inj hv]
      exact Value.made_of_ofComponents? hw
    · simp at hv
  · simp at h

theorem ty_of_product {s : ScalarType} {ty : Ty} {l r v : Value}
    (h : product s ty l r = .ok v) : v.ty = ty :=
  (made_of_product h).ty

/-- Operators are evaluated to values of types with components. -/
theorem made_of_binary {op : Operator} {ty : Ty} {l r v : Value} (h : binary op ty l r = .ok v) :
    Made ty v ∧ ty.component?.isSome := by
  unfold binary at h
  split at h
  · simp at h
  · rename_i hs
    refine ⟨?_, by rw [hs]; rfl⟩
    obtain ⟨l', -, h⟩ := Except.bind_eq_ok.mp h
    obtain ⟨r', -, h⟩ := Except.bind_eq_ok.mp h
    split at h
    · exact made_of_product h
    · split at h
      · obtain ⟨inverse, -, h⟩ := Except.bind_eq_ok.mp h
        exact made_of_componentwise h
      · exact made_of_componentwise h

theorem ty_of_binary {op : Operator} {ty : Ty} {l r v : Value} (h : binary op ty l r = .ok v) :
    v.ty = ty :=
  (made_of_binary h).1.ty

theorem made_of_negation {v w : Value} (basic : v.ty.isBasic) (h : negation v = .ok w) :
    Made v.ty w := by
  rw [negation, if_pos basic] at h
  obtain ⟨results, -, hw⟩ := Except.bind_eq_ok.mp h
  exact ⟨results, (Except.ok.inj hw).symm⟩

theorem ty_of_negation {v w : Value} (h : negation v = .ok w) : w.ty = v.ty := by
  by_cases basic : v.ty.isBasic = true
  · exact (made_of_negation basic h).ty
  · rw [negation, if_neg basic] at h
    rw [Except.ok.inj h]

theorem made_of_construct {ty : Ty} {arguments : List Value} {v : Value}
    (h : construct ty arguments = .ok v) : Made ty v := by
  unfold construct at h
  split at h
  · split at h
    · obtain ⟨x, -, hv⟩ := Except.bind_eq_ok.mp h
      exact ⟨_, (Except.ok.inj hv).symm⟩
    · split at h
      · obtain ⟨results, -, hv⟩ := Except.bind_eq_ok.mp h
        exact ⟨_, (Except.ok.inj hv).symm⟩
      · exact ⟨_, (Except.ok.inj h).symm⟩
  · exact ⟨_, (Except.ok.inj h).symm⟩

theorem ty_of_construct {ty : Ty} {arguments : List Value} {v : Value}
    (h : construct ty arguments = .ok v) : v.ty = ty :=
  (made_of_construct h).ty

theorem made_of_select {ty : Ty} {indexes : List Nat} {v w : Value}
    (h : select ty indexes v = .ok w) : Made ty w := by
  obtain ⟨results, -, hw⟩ := Except.bind_eq_ok.mp h
  exact ⟨results, (Except.ok.inj hw).symm⟩

theorem ty_of_select {ty : Ty} {indexes : List Nat} {v w : Value}
    (h : select ty indexes v = .ok w) : w.ty = ty :=
  (made_of_select h).ty

theorem eq_some_of_orNotConstant {v? : Option Value} {v : Value}
    (h : orNotConstant v? = .ok v) : v? = some v := by
  cases v? with
  | none => simp [orNotConstant] at h
  | some w => rw [Except.ok.inj h]

end Folding

theorem Signature.made_of_evaluate {g : Signature} {arguments : List Value} {v : Value}
    (h : g.evaluate arguments = some v) : Value.Made g.result v := by
  unfold evaluate at h
  split at h
  · obtain ⟨results, -, h⟩ := Option.bind_eq_some_iff.mp h
    exact ⟨_, (Option.some.inj h).symm⟩
  · obtain ⟨s, -, h⟩ := Option.bind_eq_some_iff.mp h
    obtain ⟨results, -, h⟩ := Option.bind_eq_some_iff.mp h
    exact ⟨_, (Option.some.inj h).symm⟩

theorem Function.ty_of_evaluate {f : Function} {arguments : List Value} {v : Value}
    (h : f.evaluate arguments = some v) : v.ty = f.result := by
  obtain ⟨converted, -, h⟩ := Option.bind_eq_some_iff.mp h
  cases f with
  | builtin g => exact (g.made_of_evaluate h).ty
  | constructor ty => exact Value.ty_of_ofMembers (Except.toOption_eq_some.mp h)

namespace Operator

/-- A matrix among the operands makes their common component type a floating one. -/
theorem isFloating_of_commonComponent {left right : Ty} {s : ScalarType}
    (h : commonComponent left right = .ok s) (hl : left.isProper) (hr : right.isProper)
    (hmatrix : left.isMatrix || right.isMatrix) : s.isFloating := by
  obtain ⟨l, r, hl', hr', hls, hrs⟩ := commonComponent_eq_ok h
  cases hside : left.isMatrix with
  | true =>
    refine ScalarType.isFloating_of_convertsTo hls ?_
    cases left <;> simp_all [Ty.isMatrix, Ty.isProper, Ty.component?]
  | false =>
    refine ScalarType.isFloating_of_convertsTo hrs ?_
    cases right <;> simp_all [Ty.isMatrix, Ty.isProper, Ty.component?]

theorem TermShape.proper {s : ScalarType} {left right ty : Ty} (h : TermShape s left right ty)
    (floating : (left.isMatrix || right.isMatrix) → s.isFloating) : ty.isProper := by
  have hbasic {t : Ty} (ht : t.isBasic) (hs : t.isMatrix → s.isFloating) :
      (t.withComponent s).isProper := by
    cases t with
    | void | struct => simp [Ty.isBasic] at ht
    | scalar | vector => rfl
    | matrix => exact hs rfl
  cases h with
  | same basic => exact hbasic basic fun hl => floating (by simp [hl])
  | scalarLeft basic => exact hbasic basic fun hr => floating (by simp [hr])
  | scalarRight basic => exact hbasic basic fun hl => floating (by simp [hl])

/-- Operators make proper types of proper types. -/
theorem Typed.proper {family : Family} {left right ty : Ty} (h : Typed family left right ty)
    (hl : left.isProper) (hr : right.isProper) : ty.isProper := by
  cases h with
  | multiplication number common shape =>
    have hfloating := isFloating_of_commonComponent common hl hr
    cases shape with
    | matrices => exact hfloating rfl
    | matrixVector | vectorMatrix => rfl
    | terms shape => exact shape.proper hfloating
  | arithmetic number common shape =>
    exact shape.proper (isFloating_of_commonComponent common hl hr)
  | integer integral left_integral right_integral integer shape =>
    refine shape.proper fun hmatrix => ?_
    cases left <;> cases right <;> simp_all [isIntegral, Ty.isMatrix]
  | shift => exact hl
  | relational | equality | logical => rfl

end Operator

/-- What can be computed of all overloads of all functions holds of each. -/
theorem Builtin.of_all_overloads {P : Signature → Bool}
    (h : Builtin.all.all fun b => b.overloads.all P) {g : Signature}
    (hg : g ∈ g.builtin.overloads) : P g := by
  have hmem : g.builtin ∈ Builtin.all := by cases g.builtin <;> decide
  exact List.all_eq_true.mp (List.all_eq_true.mp h _ hmem) g hg

theorem Builtin.result_proper {g : Signature} (h : g ∈ g.builtin.overloads) :
    g.result.isProper :=
  of_all_overloads (P := fun g => g.result.isProper) (by decide +kernel) h

theorem Builtin.result_basic {g : Signature} (h : g ∈ g.builtin.overloads) : g.result.isBasic :=
  of_all_overloads (P := fun g => g.result.isBasic) (by decide +kernel) h

/-- Selected components of a scalar or a vector are one of both. A selection has one to four
    letters, as many as a scalar or a vector has components. -/
theorem Expr.swizzleType_eq {base : Ty} {count : Nat}
    (shape : (∃ s, base = .scalar s) ∨ ∃ s n, base = .vector s n) (any : count ≠ 0)
    (few : count ≤ 4) : ∃ s, base.component? = some s ∧
      Ty.ofComponents? s count = some (swizzleType base count) ∧
      (swizzleType base count).isProper := by
  obtain ⟨s, hs⟩ : ∃ s, base.component? = some s := by
    rcases shape with ⟨s, rfl⟩ | ⟨s, n, rfl⟩ <;> exact ⟨s, rfl⟩
  refine ⟨s, hs, ?_⟩
  unfold swizzleType
  rw [hs]
  obtain rfl | rfl | rfl | rfl : count = 1 ∨ count = 2 ∨ count = 3 ∨ count = 4 := by omega
  all_goals exact ⟨rfl, rfl⟩

theorem Ty.isStruct_of_ofComponents? {s : ScalarType} {count : Nat} {ty : Ty}
    (h : ofComponents? s count = some ty) : ty.isStruct = false := by
  unfold ofComponents? at h
  split at h
  · rw [← Option.some.inj h]
    rfl
  · obtain ⟨n, -, rfl⟩ := Option.map_eq_some_iff.mp h
    rfl

theorem Ty.memberType_proper {ty : Ty} {index : Nat} (h : ty.isProper)
    (found : index < ty.members.length) : (ty.memberType index).isProper := by
  rw [memberType, List.getElem?_eq_getElem found]
  cases ty with
  | struct name members => exact isProper_of_mem h _ (List.getElem_mem found)
  | void | scalar | vector | matrix => simp [members] at found

namespace Expr.Checked

variable {xs : List Variable} {e : Expr}

theorem proper (h : Checked xs e) (valid : ∀ x ∈ xs, x.Valid) : e.ty.isProper := by
  induction h with
  | constant x => rfl
  | reference declared => exact (valid _ declared).proper
  | binary _ _ typed hl hr => exact (Operator.resultType_typed typed).proper hl hr
  | assign _ _ _ _ _ _ htarget _ => exact htarget
  | negate _ _ _ ih => exact ih
  | construct proper => exact proper
  | @call f _ known _ _ _ =>
    cases f with
    | builtin g => exact Builtin.result_proper known
    | constructor ty => exact known.2
  | @member base index _ found ih =>
    exact Ty.memberType_proper ih found
  | swizzle _ shape some few _ _ =>
    obtain ⟨_, -, -, hproper⟩ := swizzleType_eq shape (by simpa using some) few
    exact hproper

/-- A value at compile time has the type of its expression. -/
theorem fold_ty (h : Checked xs e) (valid : ∀ x ∈ xs, x.Valid) {v : Value}
    (hv : e.fold = .ok v) : v.ty = e.ty := by
  induction h generalizing v with
  | constant x => rw [← Except.ok.inj hv, Expr.ty]
  | @reference x declared =>
    have hv := Folding.eq_some_of_orNotConstant hv
    unfold Variable.constant? at hv
    split at hv
    · exact ((valid x declared).initial v hv).1
    · simp at hv
  | @binary op ty left right _ _ _ _ _ =>
    unfold Expr.fold at hv
    split at hv
    · obtain ⟨l, -, hv⟩ := Except.bind_eq_ok.mp hv
      obtain ⟨r, -, hv⟩ := Except.bind_eq_ok.mp hv
      exact Folding.ty_of_binary hv
    · obtain ⟨l, -, hv⟩ := Except.bind_eq_ok.mp hv
      obtain ⟨r, -, hv⟩ := Except.bind_eq_ok.mp hv
      exact Folding.ty_of_binary hv
    · simp at hv
  | assign => simp [Expr.fold] at hv
  | negate _ _ _ ih =>
    obtain ⟨x, hx, hv⟩ := Except.bind_eq_ok.mp hv
    rw [Folding.ty_of_negation hv, ih hx, Expr.ty]
  | construct =>
    obtain ⟨values, -, hv⟩ := Except.bind_eq_ok.mp hv
    exact Folding.ty_of_construct hv
  | call =>
    obtain ⟨values, -, hv⟩ := Except.bind_eq_ok.mp hv
    exact Function.ty_of_evaluate (Folding.eq_some_of_orNotConstant hv)
  | @member base index _ found ih =>
    obtain ⟨x, hx, hv⟩ := Except.bind_eq_ok.mp hv
    have hmember := Folding.eq_some_of_orNotConstant hv
    obtain ⟨⟨name, t⟩, ht, hv⟩ := Option.bind_eq_some_iff.mp hmember
    rw [ih hx] at ht
    rw [Value.ty_of_ofBytes? hv, Expr.ty, Ty.memberType, ht]
    rfl
  | swizzle _ _ _ _ _ ih =>
    obtain ⟨x, -, hv⟩ := Except.bind_eq_ok.mp hv
    exact Folding.ty_of_select hv

end Expr.Checked

theorem Expr.fold_of_constant? {e : Expr} {v : Value} (h : e.constant? = .ok (some v)) :
    e.fold = .ok v := by
  unfold constant? at h
  split at h
  · rename_i w hw
    rw [hw, Option.some.inj (Except.ok.inj h)]
  · simp at h
  · simp at h

namespace Scope

theorem mem_place {x y : Variable} {xs : List Variable} (h : y ∈ place x xs) : y = x ∨ y ∈ xs := by
  induction xs with
  | nil => simpa [place] using h
  | cons z xs ih =>
    unfold place at h
    split at h
    · rcases List.mem_cons.mp h with rfl | h
      · exact .inl rfl
      · exact .inr (List.mem_cons_of_mem z h)
    · rcases List.mem_cons.mp h with rfl | h
      · exact .inr List.mem_cons_self
      · exact (ih h).imp_right (List.mem_cons_of_mem z)

theorem nodup_place {x : Variable} {xs : List Variable} (h : (xs.map (·.id)).Nodup)
    (fresh : ∀ y ∈ xs, y.id ≠ x.id) : ((place x xs).map (·.id)).Nodup := by
  induction xs with
  | nil => simp [place]
  | cons z xs ih =>
    obtain ⟨hz, hxs⟩ := List.nodup_cons.mp h
    have hrest := ih hxs fun y hy => fresh y (List.mem_cons_of_mem z hy)
    unfold place
    split
    · refine List.nodup_cons.mpr ⟨fun hx => ?_, hxs⟩
      obtain ⟨y, hy, hyx⟩ := List.mem_map.mp hx
      exact fresh y (List.mem_cons_of_mem z hy) hyx
    · refine List.nodup_cons.mpr ⟨fun hplaced => ?_, hrest⟩
      obtain ⟨y, hy, hyz⟩ := List.mem_map.mp hplaced
      rcases mem_place hy with rfl | hy
      · exact fresh z List.mem_cons_self hyz.symm
      · exact hz (List.mem_map.mpr ⟨y, hy, hyz⟩)

theorem Valid.empty : empty.Valid := by
  constructor <;> simp [Scope.empty]

/-- Naming structs of proper types leaves the variables as they are. -/
theorem Valid.extend {s s' : Scope} (h : s.Valid) (extends_ : s.Extends s')
    (types : ∀ p ∈ s'.types, p.2.isProper) : s'.Valid := by
  refine ⟨types, ?_, ?_, ?_⟩
  · rw [extends_.declared]
    exact h.declared
  · rw [extends_.declared]
    exact h.ids
  · rw [extends_.declared, extends_.nextId]
    exact h.fresh

theorem Valid.addVariable {s : Scope} (h : s.Valid) {name : String} {ty : Ty} {q : Qualifier}
    {initial : Option Value} (valid : (s.addVariable name ty q initial).1.Valid) :
    (s.addVariable name ty q initial).2.Valid := by
  refine ⟨h.types, fun x hx => ?_, ?_, fun x hx => ?_⟩
  · rcases mem_place hx with rfl | hx
    · exact valid
    · exact h.declared x hx
  · exact nodup_place h.ids fun y hy => Nat.ne_of_lt (h.fresh y hy)
  · rcases mem_place hx with rfl | hx
    · exact Nat.lt_succ_self s.nextId
    · exact Nat.lt_succ_of_lt (h.fresh x hx)

end Scope

namespace Phrase

/-- What an initializer makes a variable start with is a value of its type. -/
theorem Initializer.valid {s s' : Scope} {ks : Kinds} {ty : Ty} {q : Qualifier}
    {initial : Option Value} (h : Initializer ty q s ks initial s') (hs : s.Valid) :
    (∀ v, initial = .some v → v.ty = ty ∧ q.storage.canInitialize) ∧
      (q.isConstant → initial.isSome) ∧ s'.Valid := by
  cases h with
  | none varies => exact ⟨by simp, by simp [varies], hs⟩
  | @some _ ks e v place value fits known =>
    obtain ⟨hchecked, htypes⟩ := value.checked hs.types
    have hty : v.ty = e.ty := hchecked.fold_ty hs.declared (Expr.fold_of_constant? known)
    exact ⟨fun w hw => ⟨Value.ty_of_convert_toOption hw, place⟩,
      fun _ => Value.convert_isSome (hty ▸ fits), hs.extend value.scope htypes⟩

theorem Declaration.valid {s s' : Scope} {ks : Kinds} (h : Declaration s ks s') (hs : s.Valid) :
    s'.Valid := by
  cases h with
  | type _ type => exact hs.extend type.scope (type.proper hs.types).2
  | @object s₁ s₂ qs ks us q ty name initial qualifiers type holds fresh starts =>
    obtain ⟨hty, htypes⟩ := type.proper hs.types
    obtain ⟨hinitial, hconstant, hs₂⟩ := starts.valid (hs.extend type.scope htypes)
    exact hs₂.addVariable ⟨hty holds, qualifiers.outside, hinitial,
      fun h => ⟨hconstant h, qualifiers.constant h⟩⟩

theorem Declarations.valid {s s' : Scope} {ks : Kinds} (h : Declarations s ks s')
    (hs : s.Valid) : s'.Valid := by
  induction h with
  | none => exact hs
  | more first _ ih => exact ih (first.valid hs)

end Phrase

/-- Reading a source of its own leaves a valid scope and a checked expression: types are proper, and
    variables start with values of their types. The scope it starts from is empty, since nothing is
    known of variables that were declared elsewhere. -/
theorem Program.checked {source : String} {p : Program} (h : parse source = .ok p) :
    p.scope.Valid ∧ p.expression.Checked p.scope.declared := by
  obtain ⟨_, s, ds, es, -, -, hdeclarations, hexpression, -⟩ := derives h
  have hs := hdeclarations.valid .empty
  obtain ⟨hchecked, htypes⟩ := hexpression.checked hs.types
  refine ⟨hs.extend hexpression.scope htypes, ?_⟩
  rw [hexpression.scope.declared]
  exact hchecked

end ShaderExpr
