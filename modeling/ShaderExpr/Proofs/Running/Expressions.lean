import ShaderExpr.Proofs.Running.Folding
import ShaderExpr.Proofs.Running.Places

namespace ShaderExpr

namespace Build

open Builder

variable {S : Setting} {b : Builder} {σ : State} {memory : Nat → Datum} {e : Expr}

/-- The result has a datum, and variables hold something behind it. -/
abbrev Evaluates (S : Setting) (r : Build Id) (b : Builder) (σ : State) (memory : Nat → Datum)
    (result : Datum × (Nat → Datum)) : Prop :=
  r.Arrives S b σ memory result.2 fun id _ σ' => σ'.values id = some result.1

theorem isNarrow_swizzleType {whole : Ty} {indexes : List Nat} (h : whole.Selects indexes) :
    (Expr.swizzleType whole indexes.length).isNarrow := by
  obtain ⟨s, -, ⟨-, htype⟩ | ⟨n, -, htype⟩⟩ := h.swizzleType_cases <;> rw [htype] <;> rfl

/-- The place of an expression is its location, and its type is one that can be declared. -/
theorem place?_arrives (ids : (S.xs.map (·.id)).Nodup) (he : e.Checked S.xs) :
    (place? e).Arrives S b σ memory memory fun p? b' σ' =>
      Option.Rel (fun p l => p.At l b' σ') p? e.location? ∧ (p?.isSome → e.ty.isNarrow) := by
  induction he generalizing b σ with
  | @reference x hx =>
    unfold place?
    refine .map fun hleads p b' hr => ?_
    obtain ⟨σ', hleads', hlater, hp⟩ := placeOf_arrives hx hleads p b' hr
    refine ⟨σ', hleads', hlater, .some hp, fun _ => ?_⟩
    obtain ⟨y, hy, hid, hnarrow⟩ := hleads'.narrow _ _ hp.declared
    rwa [List.inj_on_of_nodup_map ids hy hx hid] at hnarrow
  | @member base index hbase found ih =>
    unfold place?
    refine ih.bind fun p? b₁ σ₁ _ hplace => ?_
    obtain ⟨hrel, hnarrow⟩ := hplace
    rw [Expr.location?]
    revert hrel
    rcases p? with _ | p
    · generalize base.location? = l?
      rintro ⟨⟩
      exact .pure ⟨.none, by simp⟩
    · generalize base.location? = l?
      rintro ⟨hp⟩
      obtain ⟨hfew, hmember⟩ := Ty.isNarrow_memberType found (hnarrow rfl)
      exact .map ((memberPlace_arrives hp (fun _ => hfew) _).mono fun _ _ _ _ _ h =>
        ⟨.some h, fun _ => hmember⟩)
  | @swizzle base letters indexes hbase shape any few inside ih =>
    unfold place?
    refine ih.bind fun p? b₁ σ₁ _ hplace => ?_
    obtain ⟨hrel, -⟩ := hplace
    rw [Expr.location?]
    revert hrel
    rcases p? with _ | p
    · generalize base.location? = l?
      rintro ⟨⟩
      exact .pure ⟨.none, by simp⟩
    · generalize base.location? = l?
      rintro ⟨hp⟩
      dsimp only
      rw [map_eq_pure_bind]
      have hselects : base.ty.Selects indexes := ⟨shape, any, few, inside⟩
      exact .except_bind fun p' hp' =>
        .pure ⟨.some (hp.select (toNat_small hselects) hp'), fun _ => isNarrow_swizzleType hselects⟩
  | constant | binary | assign | negate | construct | call => exact .pure ⟨.none, by simp⟩

theorem assignedValue_yields {p : Place} {l : Location} (hp : p.At l b σ) (op : Option Operator)
    (ty : Ty) {value : Operand} {d : Datum} (hd : σ.values value.id = some d) :
    (assignedValue op ty l.ty p value).Yields S b σ memory
      (Expr.assignedDatum S.machine op ty l memory ⟨d, value.ty⟩) := by
  cases op with
  | none => exact convert_yields _ _ hd
  | some op =>
    refine (load_yields hp).bind fun current b₁ σ₁ hlater₁ hcurrent => ?_
    refine (binary_yields op ty (l := ⟨current, l.ty⟩) hcurrent (hlater₁.value hd)).bind
      fun result b₂ σ₂ _ hresult => ?_
    exact convert_yields _ _ hresult

/-- An assignment writes to the location of its place. The datum that it writes is also its value.
    -/
theorem assign_arrives {p : Place} {l : Location} (hp : p.At l b σ) (op : Option Operator) (ty : Ty)
    {value : Operand} {d : Datum} (hd : σ.values value.id = some d) :
    (assign op ty p value).Evaluates S b σ memory
      (Expr.assignedDatum S.machine op ty l memory ⟨d, value.ty⟩,
        l.write S.machine memory (Expr.assignedDatum S.machine op ty l memory ⟨d, value.ty⟩)) := by
  refine .except_bind fun t ht => ?_
  obtain rfl := hp.ty ht
  refine (assignedValue_yields hp op ty hd).bind fun stored b₁ σ₁ hlater₁ hstored => ?_
  refine (store_arrives (hp.mono hlater₁) hstored).bind fun _ b₂ σ₂ hlater₂ _ => ?_
  exact .pure (hlater₂.value hstored)

theorem folded?_arrives (e : Expr) : (folded? e).Arrives S b σ memory memory fun v? _ _ =>
    ∀ v, v? = some v → e.fold = .ok v := by
  refine .get_bind ?_
  split
  · rw [← bind_pure (liftM _)]
    exact .except_bind fun v? hv => .pure fun v heq => Expr.fold_of_constant? (heq ▸ hv)
  · exact .pure (by simp)

/-- A value that is known, the contents of a location and the value of the code of an expression
    are all what the expression means. -/
theorem valueOf_arrives {code : Build Id} (ids : (S.xs.map (·.id)).Nodup)
    (hs : b.Sound S.xs true) (he : e.Checked S.xs)
    (plain : e.callsBuiltin = false) (constants : Constants S.xs memory)
    (h : e.location? = none → ∀ b' σ', b'.Sound S.xs true →
      code.Evaluates S b' σ' memory (e.computed S.machine memory)) :
    (valueOf e code).Evaluates S b σ memory (e.eval S.machine memory) := by
  refine ((folded?_arrives e).attains (folded?_attains hs he)).bind
    fun v? b₁ σ₁ _ ⟨hfold, hs₁, _⟩ => ?_
  cases v? with
  | some v =>
    rw [(he.folds hs.valid constants plain v (hfold v rfl)).2]
    exact valueId_yields v
  -- the value is not known, or folding is off
  | none =>
    refine ((place?_arrives ids he).attains (place?_attains hs₁ he)).bind fun p? b₂ σ₂ _ hp => ?_
    obtain ⟨⟨hrel, -⟩, hs₂, -⟩ := hp
    cases hl : e.location? with
    | none =>
      rw [hl] at hrel
      cases hrel
      rw [Expr.eval_of_none hl]
      exact h hl b₂ σ₂ hs₂
    | some l =>
      rw [hl] at hrel
      cases hrel with
      | some hp =>
        rw [Expr.eval_of_location hl]
        exact load_yields hp

variable (ids : (S.xs.map (·.id)).Nodup)
include ids

mutual
/-- The code of an expression computes what the expression means, whether values that are known at
    compile time are used or not. With them, constants must hold their values. -/
theorem expr_arrives : ∀ {e : Expr} {b : Builder} {σ : State} {memory : Nat → Datum},
    b.Sound S.xs true → e.Checked S.xs → e.callsBuiltin = false → Constants S.xs memory →
    (expr e).Evaluates S b σ memory (e.eval S.machine memory)
  | .constant v, b, σ, memory, hs, he, plain, hconstants =>
    valueOf_arrives ids hs he plain hconstants fun _ b₁ σ₁ _ => by
      rw [Expr.computed_constant]
      exact valueId_yields v
  | .reference x, b, σ, memory, hs, he, plain, hconstants =>
    valueOf_arrives ids hs he plain hconstants fun _ b₁ σ₁ _ => .throw
  | .binary op ty left right, b, σ, memory, hs, he, plain, hconstants => by
    refine valueOf_arrives ids hs he plain hconstants fun _ b₁ σ₁ hs₁ => ?_
    obtain ⟨hleft, hright⟩ : left.Checked S.xs ∧ right.Checked S.xs := by
      cases he with
      | binary hleft hright _ => exact ⟨hleft, hright⟩
    obtain ⟨hpl, hpr⟩ : left.callsBuiltin = false ∧ right.callsBuiltin = false := by
      simpa [Expr.callsBuiltin] using plain
    rw [Expr.computed_binary]
    refine ((expr_arrives hs₁ hleft hpl hconstants).attains
      (expr_attains hs₁ hleft fun _ => rfl)).bind fun l b₂ σ₂ _ ⟨hl, hs₂, _⟩ => ?_
    have hconstants₂ := hleft.constants_eval (M := S.machine) ids hconstants
    refine (expr_arrives hs₂ hright hpr hconstants₂).bind fun r b₃ σ₃ hlater₃ hr => ?_
    exact binary_yields op ty (l := ⟨l, left.ty⟩) (r := ⟨r, right.ty⟩) (hlater₃.value hl) hr
  | .assign op ty target value, b, σ, memory, hs, he, plain, hconstants => by
    refine valueOf_arrives ids hs he plain hconstants fun _ b₁ σ₁ hs₁ => ?_
    obtain ⟨htarget, hvalue⟩ : target.Checked S.xs ∧ value.Checked S.xs := by
      cases he with
      | assign htarget hvalue _ _ _ _ => exact ⟨htarget, hvalue⟩
    have hpv : value.callsBuiltin = false := by
      simp only [Expr.callsBuiltin, Bool.or_eq_false_iff] at plain
      exact plain.2
    rw [Expr.computed_assign]
    refine ((place?_arrives ids htarget).attains (place?_attains hs₁ htarget)).bind
      fun p? b₂ σ₂ _ ⟨⟨hrel, _⟩, hs₂, _⟩ => ?_
    revert hrel
    rcases p? with _ | p
    · exact fun _ => .throw
    · generalize target.location? = l?
      rintro ⟨hp⟩
      -- the place is found before the value is computed, and is still the same behind it
      refine (expr_arrives hs₂ hvalue hpv hconstants).bind fun v b₃ σ₃ hlater₃ hv => ?_
      exact assign_arrives (hp.mono hlater₃) op ty hv
  | .negate operand, b, σ, memory, hs, he, plain, hconstants => by
    refine valueOf_arrives ids hs he plain hconstants fun _ b₁ σ₁ hs₁ => ?_
    have hoperand : operand.Checked S.xs := by
      cases he with
      | negate hoperand _ _ => exact hoperand
    rw [Expr.computed_negate]
    exact (expr_arrives hs₁ hoperand plain hconstants).bind fun x b₂ σ₂ _ hx =>
      negation_yields (l := ⟨x, operand.ty⟩) hx
  | .construct ty arguments, b, σ, memory, hs, he, plain, hconstants => by
    refine valueOf_arrives ids hs he plain hconstants fun _ b₁ σ₁ hs₁ => ?_
    have harguments : ∀ e ∈ arguments, e.Checked S.xs := by
      cases he with
      | construct _ _ harguments _ => exact harguments
    rw [Expr.computed_construct]
    exact (operands_arrives hs₁ harguments plain hconstants).bind fun operands b₂ σ₂ _ hoperands =>
      construct_yields ty hoperands
  | .call f arguments, b, σ, memory, hs, he, plain, hconstants => by
    refine valueOf_arrives ids hs he plain hconstants fun _ b₁ σ₁ hs₁ => ?_
    obtain ⟨hknown, harguments, haccepted⟩ : f.IsKnown ∧ (∀ e ∈ arguments, e.Checked S.xs) ∧
        List.Forall₂ (fun t u => t.convertsTo u = true) (arguments.map Expr.ty) f.parameters := by
      cases he with
      | call hknown harguments haccepted => exact ⟨hknown, harguments, haccepted⟩
    cases f with
    | builtin g => simp [Expr.callsBuiltin] at plain
    | constructor ty =>
      rw [Expr.computed_call]
      exact (converted_arrives hs₁ harguments haccepted hknown.parameters_proper plain
        hconstants).bind fun ids b₂ σ₂ _ hids => emit_construct_yields ty hids
  | .member base index, b, σ, memory, hs, he, plain, hconstants => by
    refine valueOf_arrives ids hs he plain hconstants fun _ b₁ σ₁ hs₁ => ?_
    obtain ⟨hbase, found⟩ : base.Checked S.xs ∧ index < base.ty.members.length := by
      cases he with
      | member hbase found => exact ⟨hbase, found⟩
    rw [Expr.computed_member]
    refine ((expr_arrives hs₁ hbase plain hconstants).attains
      (expr_attains hs₁ hbase fun _ => rfl)).bind fun x b₂ σ₂ _ ⟨hx, hs₂, htyped⟩ => ?_
    obtain ⟨t, ht, -⟩ := htyped
    have hfew := hs₂.length_members ht
    exact emit_extract_yields _ [index] (by simp; omega) hx
  | .swizzle base letters indexes, b, σ, memory, hs, he, plain, hconstants => by
    refine valueOf_arrives ids hs he plain hconstants fun _ b₁ σ₁ hs₁ => ?_
    obtain ⟨hbase, hselects⟩ : base.Checked S.xs ∧ base.ty.Selects indexes := by
      cases he with
      | swizzle hbase shape any few inside => exact ⟨hbase, shape, any, few, inside⟩
    rw [Expr.computed_swizzle]
    exact (expr_arrives hs₁ hbase plain hconstants).bind fun x b₂ σ₂ _ hx =>
      selectComponents_yields _ _ (toNat_small hselects) hx
theorem operands_arrives : ∀ {es : List Expr} {b : Builder} {σ : State} {memory : Nat → Datum},
    b.Sound S.xs true → (∀ e ∈ es, e.Checked S.xs) → Expr.anyCallsBuiltin es = false →
    Constants S.xs memory →
    (operands es).Arrives S b σ memory (Expr.evalAll S.machine es memory).2 fun operands _ σ' =>
      Agree σ' operands (Expr.evalAll S.machine es memory).1
  | [], b, σ, memory, _, _, _, _ => by
    rw [Expr.evalAll_nil]
    exact .pure .nil
  | e :: es, b, σ, memory, hs, hes, plain, hconstants => by
    obtain ⟨hpe, hpes⟩ : e.callsBuiltin = false ∧ Expr.anyCallsBuiltin es = false := by
      simpa [Expr.anyCallsBuiltin] using plain
    have he := hes e List.mem_cons_self
    rw [Expr.evalAll_cons]
    refine ((expr_arrives hs he hpe hconstants).attains (expr_attains hs he fun _ => rfl)).bind
      fun id b₁ σ₁ _ ⟨hid, hs₁, _⟩ => ?_
    have hconstants₁ := he.constants_eval (M := S.machine) ids hconstants
    refine (operands_arrives hs₁ (fun e' he' => hes e' (List.mem_cons_of_mem e he')) hpes
      hconstants₁).bind fun rest b₂ σ₂ hlater₂ hrest => ?_
    exact .pure (.cons ⟨rfl, hlater₂.value hid⟩ hrest)
theorem converted_arrives : ∀ {es : List Expr} {ts : List Ty} {b : Builder} {σ : State}
    {memory : Nat → Datum}, b.Sound S.xs true → (∀ e ∈ es, e.Checked S.xs) →
    List.Forall₂ (fun t u => t.convertsTo u = true) (es.map Expr.ty) ts →
    (∀ t ∈ ts, t.isProper) → Expr.anyCallsBuiltin es = false → Constants S.xs memory →
    (converted es ts).Arrives S b σ memory (Expr.evalConverted S.machine es ts memory).2
      fun ids _ σ' => σ'.Have ids (Expr.evalConverted S.machine es ts memory).1
  | [], ts, b, σ, memory, _, _, accepted, _, _, _ => by
    cases accepted
    rw [Expr.evalConverted_nil]
    exact .pure .nil
  | e :: es, ts, b, σ, memory, hs, hes, accepted, proper, plain, hconstants => by
    obtain _ | @⟨_, t, _, ts, hfits, accepted⟩ := accepted
    obtain ⟨hpe, hpes⟩ : e.callsBuiltin = false ∧ Expr.anyCallsBuiltin es = false := by
      simpa [Expr.anyCallsBuiltin] using plain
    have he := hes e List.mem_cons_self
    rw [converted, Expr.evalConverted_cons]
    refine ((expr_arrives hs he hpe hconstants).attains (expr_attains hs he fun _ => rfl)).bind
      fun x b₁ σ₁ _ ⟨hx, hs₁, htyped⟩ => ?_
    refine ((convert_yields e.ty t hx).attains (convert_attains hs₁ (Ty.alike_of_convertsTo hfits)
      (Ty.isAllowed_of_isProper true (proper t List.mem_cons_self)) htyped)).bind
      fun id b₂ σ₂ _ ⟨hid, hs₂, _⟩ => ?_
    have hconstants₁ := he.constants_eval (M := S.machine) ids hconstants
    refine (converted_arrives hs₂ (fun e' he' => hes e' (List.mem_cons_of_mem e he')) accepted
      (fun t' ht' => proper t' (List.mem_cons_of_mem t ht')) hpes hconstants₁).bind
      fun rest b₃ σ₃ hlater₃ hrest => ?_
    exact .pure (.cons (hlater₃.value hid) hrest)
end

end Build

end ShaderExpr
