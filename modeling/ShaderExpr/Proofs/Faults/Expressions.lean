import ShaderExpr.Proofs.Build.Code
import ShaderExpr.Proofs.Faults.Operations
import ShaderExpr.Proofs.Interning.Traces

namespace ShaderExpr

namespace Variable

/-- A variable of a valid scope is one that evaluation can rely on. -/
theorem Valid.wellFormed {x : Variable} (h : x.Valid) : x.WellFormed where
  present := by
    have hproper := h.proper
    cases hty : x.ty with
    | void => simp [hty, Ty.isProper] at hproper
    | scalar | vector | matrix | struct => rfl
  initial := h.initial
  constant := h.constant

/-- The value that a variable is declared with can be a constant of a module. -/
theorem Valid.initial_isComplete {x : Variable} (h : x.Valid) (v : Value)
    (hv : x.initial = some v) : v.ty.isComplete :=
  (h.initial v hv).1 ▸ Ty.isComplete_of_isProper h.proper

end Variable

namespace Expr

variable {xs : List Variable} {e : Expr}

theorem Checked.wellTyped (h : e.Checked xs) : e.WellTyped xs := by
  induction h with
  | constant => exact .node rfl (by simp [parts])
  | reference hx => exact .node hx (by simp [parts])
  | binary _ _ typed hleft hright => exact .node typed (by simp [parts, hleft, hright])
  | assign _ _ place writable typed fits htarget hvalue =>
    exact .node ⟨place, writable, typed, fits⟩ (by simp [parts, htarget, hvalue])
  | negate _ basic number hoperand => exact .node ⟨basic, number⟩ (by simp [parts, hoperand])
  | construct proper basic _ filled harguments =>
    exact .node ⟨basic, fun e he => filled.isBasic _ (List.mem_map_of_mem he)⟩ harguments
  | @call f _ known _ accepted harguments =>
    refine .node ⟨?_, accepted⟩ harguments
    cases f with
    | builtin => exact known
    | constructor => exact known.1
  | member _ found hbase => exact .node found (by simp [parts, hbase])
  | swizzle _ shape any few inside hbase =>
    exact .node ⟨shape, List.length_pos_iff.mpr any, few, inside⟩ (by simp [parts, hbase])

/-- Evaluation of a checked expression meets no fault. -/
theorem Checked.settles (h : e.Checked xs) (valid : ∀ x ∈ xs, x.Valid) : e.Settles :=
  h.wellTyped.settles fun x hx => (valid x hx).wellFormed

end Expr

namespace Build

open Builder

variable [Limits] {xs : List Variable} {b b' : Builder} {p : Place} {ty : Ty}

theorem initialIds_runs {x : Variable} (complete : ∀ v, x.initial = some v → v.ty.isComplete) :
    (initialIds x).Runs b := by
  unfold initialIds
  split
  · rename_i v hv
    exact .ite (fun _ => (valueId_runs (complete v hv)).bind fun _ _ _ => .pure _) fun _ => .pure _
  · exact .pure _

theorem nameVariable_runs (x : Variable) (id : Id) : (nameVariable x id).Runs b :=
  (nameId_runs _ _).bind fun _ _ _ => (Runs.modify _).bind fun _ _ _ => .pure _

theorem registerVariable_runs (x : Variable) (id : Id) : (registerVariable x id).Runs b := by
  unfold registerVariable
  split
  · exact (Runs.modify _).bind fun _ _ _ => nameVariable_runs x id
  · exact nameVariable_runs x id

theorem variableId_runs {x : Variable} (complete : ∀ v, x.initial = some v → v.ty.isComplete) :
    (variableId x).Runs b := by
  intro cause h
  cases hknown : b.declared.lookup x.id with
  | some id =>
    rw [variableId_of_known hknown] at h
    exact Runs.pure (b := b) id cause h
  | none =>
    have hplace (pointer id : Id) (b : Builder) : (placeVariable x pointer id).Runs b :=
      (initialIds_runs complete).bind fun _ _ _ => (add_runs _ _ _).bind fun _ _ _ =>
        registerVariable_runs _ _
    rw [variableId_of_new hknown] at h
    refine Runs.bind (pointerTypeId_runs _ _) (fun pointer _ _ => fresh_runs.bind fun id b₁ _ => ?_)
      cause h
    exact .ite (fun _ => (Runs.modify _).bind fun _ _ _ => nameVariable_runs x id)
      fun _ => hplace pointer id b₁

theorem pointer_runs (p : Place) : (pointer p).Runs b :=
  .ite (fun _ => .pure _) fun _ => (pointerTypeId_runs _ _).bind fun _ _ _ =>
    fresh_runs.bind fun _ _ _ => (add_runs _ _ _).bind fun _ _ _ => .pure _

theorem load_runs (hp : p.ty? = .ok ty) : (load p).Runs b := by
  refine (pointer_runs p).bind fun _ _ _ => (emit_runs _ _ _).bind fun _ _ _ => ?_
  split
  · exact .pure _
  · exact (Runs.except_ok ⟨ty, hp⟩).bind fun _ _ _ => selectComponents_runs _ _ _ _

theorem storedWhole_runs (p : Place) (pointer value : Id) : (storedWhole p pointer value).Runs b := by
  unfold storedWhole
  split
  · exact .pure _
  · exact .ite (fun _ => .pure _) fun _ =>
      (emit_runs _ _ _).bind fun _ _ _ => replaceComponents_runs _ _ _ _

theorem store_runs (p : Place) (value : Id) : (store p value).Runs b :=
  (pointer_runs p).bind fun _ _ _ => (storedWhole_runs p _ _).bind fun _ _ _ => add_runs _ _ _

theorem assign_runs {op : Option Operator} {value : Operand} {target : Ty} (hp : p.ty? = .ok target)
    (typed : Reader.assignedType op target value.ty = .ok ty) (fits : ty.convertsTo target) :
    (assign op ty p value).Runs b := by
  have hvalue {b : Builder} : (assignedValue op ty target p value).Runs b := by
    have hconvert {b : Builder} (id : Id) : (convert id ty target).Runs b :=
      convert_runs id (Ty.alike_of_convertsTo fits)
    cases op with
    | none =>
      obtain rfl := Except.ok.inj typed
      exact hconvert value.id
    | some op =>
      exact (load_runs hp).bind fun current _ _ =>
        (binary_runs (l := ⟨current, target⟩) typed).bind fun _ _ _ => hconvert _
  exact .except_bind hp <| hvalue.bind fun _ _ _ => (store_runs p _).bind fun _ _ _ => .pure _

omit [Limits] in
theorem exists_of_map {r : Build Place} {p? : Option Place}
    (h : (some <$> r) b = .ok (p?, b')) : ∃ p, r b = .ok (p, b') ∧ p? = some p := by
  rw [map_eq_pure_bind] at h
  obtain ⟨p, b₁, hp, hpure⟩ := bind_eq_ok.mp h
  obtain ⟨rfl, rfl⟩ := Prod.mk.inj (Except.ok.inj hpure)
  exact ⟨p, hp, rfl⟩

/-- What can be assigned to denotes a place. -/
theorem isSome_of_place? : ∀ {e : Expr} {b b' : Builder} {p? : Option Place}, e.isAssignable →
    place? e b = .ok (p?, b') → p?.isSome
  | .reference x, b, b', p?, _, h => by
    rw [place?] at h
    obtain ⟨p, -, rfl⟩ := exists_of_map h
    rfl
  | .member base index, b, b', p?, hbase, h => by
    rw [place?] at h
    obtain ⟨q?, b₁, hq, h⟩ := bind_eq_ok.mp h
    obtain ⟨q, rfl⟩ := Option.isSome_iff_exists.mp (isSome_of_place? (e := base) hbase hq)
    obtain ⟨p, -, rfl⟩ := exists_of_map h
    rfl
  | .swizzle base letters indexes, b, b', p?, hassignable, h => by
    obtain ⟨-, hbase⟩ := Bool.and_eq_true_iff.mp hassignable
    rw [place?] at h
    obtain ⟨q?, b₁, hq, h⟩ := bind_eq_ok.mp h
    obtain ⟨q, rfl⟩ := Option.isSome_iff_exists.mp (isSome_of_place? hbase hq)
    obtain ⟨p, -, rfl⟩ := exists_of_map h
    rfl
  | .constant _, _, _, _, h, _ | .binary .., _, _, _, h, _ | .assign .., _, _, _, h, _
  | .negate _, _, _, _, h, _ | .construct .., _, _, _, h, _ | .call .., _, _, _, h, _ =>
    absurd h Bool.false_ne_true

/-- The place of an expression has its type, whatever the ids in it are. -/
theorem place?_hasType : ∀ {e : Expr} {b b' : Builder} {p : Place}, e.Checked xs →
    place? e b = .ok (some p, b') → p.HasType e.ty
  | .reference x, b, b', p, _, h => by
    rw [place?] at h
    obtain ⟨_, h, heq⟩ := exists_of_map h
    obtain rfl := Option.some.inj heq
    obtain ⟨id, b₁, -, hpure⟩ := bind_eq_ok.mp h
    obtain ⟨rfl, -⟩ := Prod.mk.inj (Except.ok.inj hpure)
    exact ⟨fun _ => rfl, by simp⟩
  | .member base index, b, b', p, he, h => by
    obtain ⟨hbase, found⟩ : base.Checked xs ∧ index < base.ty.members.length := by
      cases he with
      | member hbase found => exact ⟨hbase, found⟩
    rw [place?] at h
    obtain ⟨q?, b₁, hq, h⟩ := bind_eq_ok.mp h
    cases q? with
    | none => exact absurd (Except.ok.inj h) (by simp)
    | some q =>
      obtain ⟨_, h, heq⟩ := exists_of_map h
      obtain rfl := Option.some.inj heq
      rw [memberPlace, (place?_hasType hbase hq).selected_eq_none found] at h
      obtain ⟨id, b₂, -, hpure⟩ := bind_eq_ok.mp h
      obtain ⟨rfl, -⟩ := Prod.mk.inj (Except.ok.inj hpure)
      exact ⟨fun _ => rfl, by simp⟩
  | .swizzle base letters indexes, b, b', p, he, h => by
    obtain ⟨hbase, hselects⟩ : base.Checked xs ∧ base.ty.Selects indexes := by
      cases he with
      | swizzle hbase shape hany few inside => exact ⟨hbase, shape, hany, few, inside⟩
    rw [place?] at h
    obtain ⟨q?, b₁, hq, h⟩ := bind_eq_ok.mp h
    cases q? with
    | none => exact absurd (Except.ok.inj h) (by simp)
    | some q =>
      obtain ⟨_, h, heq⟩ := exists_of_map h
      obtain rfl := Option.some.inj heq
      obtain ⟨p', hp, hpair⟩ := Except.bind_eq_ok.mp
        (show (q.select indexes >>= fun p => Except.ok (p, b₁)) = .ok (p, b') from h)
      obtain ⟨rfl, -⟩ := Prod.mk.inj (Except.ok.inj hpair)
      exact (place?_hasType hbase hq).select hselects hp
  | .constant _, _, _, _, _, h | .binary .., _, _, _, _, h | .assign .., _, _, _, _, h
  | .negate _, _, _, _, _, h | .construct .., _, _, _, _, h | .call .., _, _, _, _, h =>
    absurd (Except.ok.inj h) (by simp)

/-- The values that variables are declared with can be constants of a module. -/
def Startable (xs : List Variable) : Prop :=
  ∀ x ∈ xs, ∀ v, x.initial = some v → v.ty.isComplete

theorem place?_runs (startable : Startable xs) : ∀ {e : Expr} {b : Builder}, e.Checked xs →
    (place? e).Runs b
  | .reference x, b, .reference hx =>
    ((variableId_runs (startable x hx)).bind fun _ _ _ => .pure _).map
  | .member base index, b, .member hbase found => by
    refine (place?_runs startable hbase).bind fun p? b₁ hp => ?_
    cases p? with
    | none => exact .pure _
    | some p =>
      refine Runs.map ?_
      rw [memberPlace, (place?_hasType hbase hp).selected_eq_none found]
      exact (valueId_runs rfl).bind fun _ _ _ => .pure _
  | .swizzle base letters indexes, b, .swizzle hbase shape hany few inside => by
    refine (place?_runs startable hbase).bind fun p? b₁ hp => ?_
    cases p? with
    | none => exact .pure _
    | some p =>
      exact Runs.map
        (.except_ok ((place?_hasType hbase hp).select_total ⟨shape, hany, few, inside⟩))
  | .constant _, _, _ | .binary .., _, _ | .assign .., _, _ | .negate _, _, _
  | .construct .., _, _ | .call .., _, _ => .pure _

theorem folded?_runs {e : Expr} (he : e.Settles) : (folded? e).Runs b := by
  refine .get_bind (.ite (fun _ => .except_ok ?_) fun _ => .pure _)
  rcases he.constant? with ⟨v, hv, -⟩ | hnone
  · exact ⟨_, hv⟩
  · exact ⟨_, hnone⟩

omit [Limits] in
/-- A value that is known without code has the type of the expression. -/
theorem ty_of_folded? {e : Expr} (valid : ∀ x ∈ xs, x.Valid) (he : e.Checked xs) {v : Value}
    (h : folded? e b = .ok (some v, b')) : v.ty = e.ty := by
  have hrun : (if b.options.foldConstants then e.constant? else return none : Build _) b =
    .ok (some v, b') := h
  split at hrun
  · obtain ⟨v?, hv, hpair⟩ := Except.bind_eq_ok.mp
      (show (e.constant? >>= fun v? => Except.ok (v?, b)) = .ok (some v, b') from hrun)
    obtain ⟨rfl, -⟩ := Prod.mk.inj (Except.ok.inj hpair)
    exact he.fold_ty valid (Expr.fold_of_constant? hv)
  · exact absurd (Except.ok.inj hrun) (by simp)

/-- A value needs code of its own only where there is neither a known value nor a place. -/
theorem valueOf_runs (valid : ∀ x ∈ xs, x.Valid) {e : Expr} {code : Build Id} (he : e.Checked xs)
    (h : ∀ b, e.isAssignable = false → code.Runs b) : (valueOf e code).Runs b := by
  refine (folded?_runs (he.settles valid)).bind fun v? b₁ hv => ?_
  cases v? with
  | some v =>
    refine valueId_runs ?_
    rw [ty_of_folded? valid he hv]
    exact Ty.isComplete_of_isProper (he.proper valid)
  | none =>
    refine (place?_runs (fun x hx => (valid x hx).initial_isComplete) he).bind fun p? b₂ hp => ?_
    cases p? with
    | some p => exact load_runs (place?_hasType he hp).ty?
    | none =>
      refine h b₂ (Bool.eq_false_iff.mpr fun hassignable => ?_)
      simpa using isSome_of_place? hassignable hp

/-- Operands have the types of their expressions. -/
theorem ty_of_operands : ∀ {es : List Expr} {b b' : Builder} {operands : List Operand},
    Build.operands es b = .ok (operands, b') → operands.map (·.ty) = es.map Expr.ty
  | [], _, _, _, h => by
    rw [Build.operands] at h
    obtain ⟨rfl, -⟩ := Prod.mk.inj (Except.ok.inj h)
    rfl
  | e :: es, _, _, _, h => by
    rw [Build.operands] at h
    obtain ⟨x, b₁, -, h⟩ := bind_eq_ok.mp h
    obtain ⟨rest, b₂, hrest, hpure⟩ := bind_eq_ok.mp h
    obtain ⟨rfl, -⟩ := Prod.mk.inj (Except.ok.inj hpure)
    simp [ty_of_operands hrest]

mutual
/-- Code of checked expressions is only asked for what its operands have, so nothing but a limit can
    be in its way. The variables must be valid, since each use of one declares it with the value
    that it starts with. -/
theorem expr_runs (valid : ∀ x ∈ xs, x.Valid) : ∀ {e : Expr} {b : Builder}, e.Checked xs →
    (expr e).Runs b
  | .constant v, b, he =>
    valueOf_runs valid he fun _ _ => valueId_runs (Ty.isComplete_of_isProper (he.proper valid))
  | .reference x, b, he => valueOf_runs valid he fun _ hassignable => nomatch hassignable
  | .binary op ty left right, b, he => by
    refine valueOf_runs valid he fun b₁ _ => ?_
    obtain ⟨hleft, hright, htyped⟩ : left.Checked xs ∧ right.Checked xs ∧
        op.resultType left.ty right.ty = .ok ty := by
      cases he with
      | binary hleft hright htyped => exact ⟨hleft, hright, htyped⟩
    exact (expr_runs valid hleft).bind fun l _ _ => (expr_runs valid hright).bind fun r _ _ =>
      binary_runs (l := ⟨l, left.ty⟩) (r := ⟨r, right.ty⟩) htyped
  | .assign op ty target value, b, he => by
    refine valueOf_runs valid he fun b₁ _ => ?_
    obtain ⟨htarget, hvalue, hplace, htyped, hfits⟩ : target.Checked xs ∧ value.Checked xs ∧
        target.isAssignable ∧ Reader.assignedType op target.ty value.ty = .ok ty ∧
          ty.convertsTo target.ty := by
      cases he with
      | assign htarget hvalue hplace _ htyped hfits =>
        exact ⟨htarget, hvalue, hplace, htyped, hfits⟩
    have startable : Startable xs := fun x hx => (valid x hx).initial_isComplete
    refine (place?_runs startable htarget).bind fun p? b₂ hp => ?_
    obtain ⟨p, rfl⟩ := Option.isSome_iff_exists.mp (isSome_of_place? hplace hp)
    exact (expr_runs valid hvalue).bind fun v _ _ =>
      assign_runs (place?_hasType htarget hp).ty? htyped hfits
  | .negate operand, b, he => by
    refine valueOf_runs valid he fun b₁ _ => ?_
    obtain ⟨hoperand, hbasic⟩ : operand.Checked xs ∧ operand.ty.isBasic := by
      cases he with
      | negate hoperand hbasic _ => exact ⟨hoperand, hbasic⟩
    exact (expr_runs valid hoperand).bind fun x _ _ => negation_runs (x := ⟨x, operand.ty⟩) hbasic
  | .construct ty arguments, b, he => by
    refine valueOf_runs valid he fun b₁ _ => ?_
    obtain ⟨hbasic, harguments, hfilled⟩ : ty.isBasic ∧ (∀ e ∈ arguments, e.Checked xs) ∧
        ty.FilledBy (arguments.map Expr.ty) := by
      cases he with
      | construct _ hbasic harguments hfilled => exact ⟨hbasic, harguments, hfilled⟩
    exact (operands_runs valid harguments).bind fun _ _ hoperands =>
      construct_runs hbasic (ty_of_operands hoperands ▸ hfilled)
  | .call f arguments, b, he => by
    refine valueOf_runs valid he fun b₁ _ => ?_
    obtain ⟨harguments, haccepted⟩ : (∀ e ∈ arguments, e.Checked xs) ∧
        List.Forall₂ (fun t u => t.convertsTo u = true) (arguments.map Expr.ty) f.parameters := by
      cases he with
      | call _ harguments haccepted => exact ⟨harguments, haccepted⟩
    exact (converted_runs valid harguments haccepted).bind fun _ _ _ => functionCall_runs _ _
  | .member base index, b, he => by
    refine valueOf_runs valid he fun b₁ _ => ?_
    obtain hbase : base.Checked xs := by
      cases he with
      | member hbase _ => exact hbase
    exact (expr_runs valid hbase).bind fun _ _ _ => emit_runs _ _ _
  | .swizzle base letters indexes, b, he => by
    refine valueOf_runs valid he fun b₁ _ => ?_
    obtain hbase : base.Checked xs := by
      cases he with
      | swizzle hbase _ _ _ _ => exact hbase
    exact (expr_runs valid hbase).bind fun _ _ _ => selectComponents_runs _ _ _ _
theorem operands_runs (valid : ∀ x ∈ xs, x.Valid) : ∀ {es : List Expr} {b : Builder},
    (∀ e ∈ es, e.Checked xs) → (operands es).Runs b
  | [], _, _ => .pure []
  | e :: _, _, hes =>
    (expr_runs valid (hes e List.mem_cons_self)).bind fun _ _ _ =>
      (operands_runs valid fun e' he' => hes e' (List.mem_cons_of_mem e he')).bind
        fun _ _ _ => .pure _
theorem converted_runs (valid : ∀ x ∈ xs, x.Valid) : ∀ {es : List Expr} {ts : List Ty}
    {b : Builder}, (∀ e ∈ es, e.Checked xs) →
    List.Forall₂ (fun t u => t.convertsTo u = true) (es.map Expr.ty) ts → (converted es ts).Runs b
  | [], _, _, _, _ => .pure []
  | e :: es, _, _, hes, haccepted => by
    obtain _ | @⟨_, t, _, ts, hfits, haccepted⟩ := haccepted
    rw [converted]
    refine (expr_runs valid (hes e List.mem_cons_self)).bind fun x _ _ =>
      (convert_runs x (Ty.alike_of_convertsTo hfits)).bind fun _ _ _ => ?_
    exact (converted_runs valid (fun e' he' => hes e' (List.mem_cons_of_mem e he')) haccepted).bind
      fun _ _ _ => .pure _
end

theorem addHeader_runs (function : Id) : (addHeader function).Runs b := by
  have hcapabilities {b : Builder} : addCapabilities.Runs b :=
    (add_runs _ _ _).bind fun _ _ _ => .get_bind (.ite (fun _ => add_runs _ _ _) fun _ => .pure ())
  have himport {b : Builder} : addImport.Runs b := by
    refine .get_bind ?_
    split
    · exact add_runs _ _ _
    · exact .pure ()
  have hentry {b : Builder} : (addEntryPoint function).Runs b :=
    .get_bind (.ite (fun _ => (add_runs _ _ _).bind fun _ _ _ => add_runs _ _ _) fun _ => .pure ())
  exact hcapabilities.bind fun _ _ _ => himport.bind fun _ _ _ => (add_runs _ _ _).bind
    fun _ _ _ => hentry

theorem finish_runs : finish.Runs b := by
  refine (typeId_runs .void).bind fun void b₁ _ => .get_bind ?_
  exact fresh_runs.bind fun _ _ _ => (add_runs _ _ _).bind fun _ _ _ => fresh_runs.bind
    fun _ _ _ => fresh_runs.bind fun _ _ _ => (nameId_runs _ _).bind fun _ _ _ =>
      (addHeader_runs _).bind fun _ _ _ => .get_bind (.pure _)

end Build

end ShaderExpr
