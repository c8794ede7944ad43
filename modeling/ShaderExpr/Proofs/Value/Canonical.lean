import ShaderExpr.Proofs.Running.Datum

namespace ShaderExpr

namespace Ty

mutual
/-- Bytes that components of the right types are written as, those of a struct member by member. A
    truth value could be read from any word, but evaluation only writes zero and one. -/
def Canonical : Ty → List UInt8 → Prop
  | .struct _ members, data => MembersCanonical members data
  | ty, data => ∃ cs : List Scalar, cs.length = ty.componentCount ∧
      (∀ c ∈ cs, ty.component? = some c.type) ∧ data = cs.flatMap Scalar.bytes
def MembersCanonical : List (String × Ty) → List UInt8 → Prop
  | [], _ => True
  | (_, ty) :: rest, data =>
    ty.Canonical (data.take ty.size) ∧ MembersCanonical rest (data.drop ty.size)
end

theorem canonical_iff {ty : Ty} (h : ty.isStruct = false) {data : List UInt8} :
    ty.Canonical data ↔ ∃ cs : List Scalar, cs.length = ty.componentCount ∧
      (∀ c ∈ cs, ty.component? = some c.type) ∧ data = cs.flatMap Scalar.bytes := by
  cases ty with
  | struct => simp [isStruct] at h
  | void | scalar | vector | matrix => exact Iff.rfl

/-- A member lies behind the members in front of it. -/
theorem MembersCanonical.member : ∀ {members : List (String × Ty)} {data : List UInt8} {i : Nat}
    {m : String × Ty}, MembersCanonical members data → members[i]? = some m →
      m.2.Canonical ((data.drop (membersSize (members.take i))).take m.2.size)
  | (_, _) :: _, _, 0, _, h, hm => by
    obtain rfl := Option.some.inj hm
    exact h.1
  | (_, ty) :: members, data, i + 1, _, h, hm => by
    rw [List.take_succ_cons, membersSize, ← List.drop_drop]
    exact h.2.member hm

end Ty

namespace Scalar

/-- Zero is written in bytes that are zero. -/
theorem bytes_zero (s : ScalarType) : (zero s).bytes = List.replicate s.size 0 := by
  cases s <;> decide +kernel

end Scalar

namespace Value

/-- A value whose bytes are those that its components are written as. -/
def Canonical (v : Value) : Prop := v.ty.Canonical v.data

variable {v w : Value} {ty : Ty}

theorem data_ofComponents {s : ScalarType} (hs : ty.component? = some s) (cs : List Scalar) :
    (ofComponents ty cs).data = ((cs.take ty.componentCount).map (fun c => c.convert s) ++
      List.replicate (ty.componentCount - (cs.take ty.componentCount).length)
        (Scalar.zero s)).flatMap Scalar.bytes := by
  rw [bytes_ofComponents hs, List.flatMap_append, List.flatMap_map, List.flatMap_replicate,
    Scalar.bytes_zero, List.flatten_replicate_replicate, Nat.mul_comm]

theorem canonical_ofComponents (h : ty.isStruct = false) (cs : List Scalar) :
    (ofComponents ty cs).Canonical := by
  rw [Canonical, ofComponents_ty, Ty.canonical_iff h]
  cases hs : ty.component? with
  | none =>
    obtain rfl : ty = .void := by
      cases ty with
      | void => rfl
      | struct => simp [Ty.isStruct] at h
      | scalar | vector | matrix => simp [Ty.component?] at hs
    have hsize := (ofComponents .void cs).size_eq
    rw [ofComponents_ty] at hsize
    exact ⟨[], rfl, by simp, List.length_eq_zero_iff.mp hsize⟩
  | some s =>
    refine ⟨_, ?_, fun c hc => ?_, data_ofComponents hs cs⟩
    · have hle := List.length_take_le ty.componentCount cs
      simp only [List.length_append, List.length_map, List.length_replicate]
      omega
    · rcases List.mem_append.mp hc with hc | hc
      · obtain ⟨x, -, rfl⟩ := List.mem_map.mp hc
        rw [Scalar.type_convert]
      · rw [List.eq_of_mem_replicate hc, Scalar.zero, Scalar.type_convert]

theorem eq_of_data (hty : v.ty = w.ty) (hdata : v.data = w.data) : v = w := by
  obtain ⟨ty, data, hsize⟩ := v
  obtain ⟨ty', data', hsize'⟩ := w
  cases hty
  cases hdata
  rfl

/-- Components that were written are read. -/
theorem components_of_data {s : ScalarType} {cs : List Scalar} (hs : v.ty.component? = some s)
    (count : cs.length = v.ty.componentCount) (typed : ∀ c ∈ cs, c.type = s)
    (hdata : v.data = cs.flatMap Scalar.bytes) : v.components = cs := by
  rw [components_eq (Ty.isBasic_of_component? hs)]
  refine List.ext_getElem (by simp [count]) fun i hi hi' => ?_
  have hsize : ∀ c ∈ cs, c.bytes.length = s.size := fun c hc => by
    rw [Scalar.length_bytes, typed c hc]
  have hpiece := List.take_drop_flatMap hsize (List.getElem?_eq_getElem hi') []
  have hread := Scalar.ofBytes?_bytes cs[i]
  rw [typed _ (List.getElem_mem hi')] at hread
  rw [List.append_nil, ← hdata] at hpiece
  rw [List.getElem_map, List.getElem_range, cell, get?, hs, Option.bind_some, hpiece, hread,
    Option.getD_some]

/-- A canonical value is put together again from its components. -/
theorem Canonical.ofComponents_components (h : v.Canonical) (basic : v.ty.isBasic) :
    ofComponents v.ty v.components = v := by
  obtain ⟨s, hs⟩ := Ty.component?_of_isBasic basic
  obtain ⟨cs, count, typed, hdata⟩ := (Ty.canonical_iff (Ty.isStruct_of_isBasic basic)).mp h
  have htyped : ∀ c ∈ cs, c.type = s := fun c hc =>
    Option.some.inj ((typed c hc).symm.trans hs)
  have hsame : cs.map (fun c => c.convert s) = cs := by
    rw [List.map_congr_left (g := id) fun c hc => by rw [← htyped c hc, Scalar.convert_type]; rfl,
      List.map_id]
  rw [components_of_data hs count htyped hdata]
  refine eq_of_data (ofComponents_ty _ _) ?_
  rw [data_ofComponents hs, List.take_of_length_le (Nat.le_of_eq count), hsame, count, Nat.sub_self,
    List.replicate_zero, List.append_nil, hdata]

theorem Made.canonical (h : ty.isStruct = false) (hv : Made ty v) : v.Canonical := by
  obtain ⟨cs, rfl⟩ := hv
  exact canonical_ofComponents h cs

theorem Canonical.convert (hv : v.Canonical) (h : v.convert ty = .ok w) : w.Canonical := by
  unfold Value.convert at h
  split at h
  · rw [← Except.ok.inj h]
    exact hv
  · split at h
    · rename_i hbasic
      rw [← Except.ok.inj h]
      simp only [Bool.and_eq_true] at hbasic
      exact canonical_ofComponents (Ty.isStruct_of_isBasic hbasic.1.2) _
    · simp at h

theorem Canonical.member? (hv : v.Canonical) {i : Nat} (h : v.member? i = some w) :
    w.Canonical := by
  obtain ⟨⟨name, t⟩, hm, h⟩ := Option.bind_eq_some_iff.mp h
  have hmembers : Ty.MembersCanonical v.ty.members v.data := by
    unfold Canonical at hv
    generalize v.ty = ty at hv hm
    cases ty with
    | struct => exact hv
    | void | scalar | vector | matrix => simp [Ty.members] at hm
  rw [Canonical, ty_of_ofBytes? h, data_of_ofBytes? h]
  exact hmembers.member hm

/-- Members one behind the other. -/
theorem membersCanonical_flatMap {values : List Value} {members : List (String × Ty)}
    (h : List.Forall₂ (fun v m => v.Canonical ∧ v.ty = m.2) values members) :
    Ty.MembersCanonical members (values.flatMap (·.data)) := by
  induction h with
  | nil => trivial
  | @cons v m values members hv _ ih =>
    obtain ⟨hcanonical, hty⟩ := hv
    have hsize : v.data.length = m.2.size := by rw [v.size_eq, hty]
    rw [List.flatMap_cons]
    refine ⟨?_, ?_⟩
    · rw [List.take_left' hsize, ← hty]
      exact hcanonical
    · rw [List.drop_left' hsize]
      exact ih

end Value

namespace Folding

theorem canonical_negation {v w : Value} (hv : v.Canonical) (h : negation v = .ok w) :
    w.Canonical := by
  by_cases basic : v.ty.isBasic = true
  · exact (made_of_negation basic h).canonical (Ty.isStruct_of_isBasic basic)
  · rw [negation, if_neg basic] at h
    rw [← Except.ok.inj h]
    exact hv

theorem canonical_binary {op : Operator} {ty : Ty} {l r v : Value} (h : binary op ty l r = .ok v) :
    v.Canonical := by
  obtain ⟨hmade, hty⟩ := made_of_binary h
  obtain ⟨s, hs⟩ := Option.isSome_iff_exists.mp hty
  exact hmade.canonical (Ty.isStruct_of_isBasic (Ty.isBasic_of_component? hs))

end Folding

/-- Calls of constants have canonical values. A struct passes its members on as they are, so these
    have to be canonical as well. -/
theorem Function.canonical_evaluate {f : Function} {arguments : List Value} {v : Value}
    (known : f.IsKnown)
    (accepted : List.Forall₂ (fun v t => v.ty.convertsTo t = true) arguments f.parameters)
    (canonical : ∀ x ∈ arguments, x.Canonical) (h : f.evaluate arguments = some v) :
    v.Canonical := by
  obtain ⟨converted, htypes, hconverted, hevaluate⟩ := evaluate_eq accepted
  rw [hevaluate] at h
  cases f with
  | builtin g =>
    have hbasic := Ty.isStruct_of_isBasic (Builtin.result_basic known)
    exact (g.made_of_evaluate h).canonical hbasic
  | constructor ty =>
    obtain ⟨w, hw, hty, hdata⟩ := Value.ofMembers_total known.1 (typed_iff.mpr htypes)
    simp only [hw, Except.toOption] at h
    obtain rfl := Option.some.inj h
    have hsteps := (List.forall₂_and_left _ _).mpr ⟨canonical, hconverted⟩
    have hwritten : List.Forall₂ (fun w _ => w.Canonical ∧ True) converted arguments :=
      (hsteps.imp fun v w hstep => ⟨hstep.1.convert hstep.2, trivial⟩).flip
    obtain ⟨hcanonical, -⟩ := (List.forall₂_and_left _ _).mp hwritten
    have hmembers := Value.membersCanonical_flatMap
      ((List.forall₂_and_left _ _).mpr ⟨hcanonical, typed_iff.mpr htypes⟩)
    rw [← hdata] at hmembers
    unfold Value.Canonical
    rw [hty]
    cases ty with
    | struct => exact hmembers
    | void | scalar | vector | matrix => exact absurd known.1 (by simp [Ty.isStruct])

namespace Expr

/-- What holds of the value of each argument. -/
theorem forall₂_of_foldAll {R : Value → Expr → Prop} : ∀ {es : List Expr} {vs : List Value},
    foldAll es = .ok vs → (∀ e ∈ es, ∀ v, e.fold = .ok v → R v e) → List.Forall₂ R vs es
  | [], _, h, _ => by
    rw [← Except.ok.inj h]
    exact .nil
  | e :: es, vs, h, hes => by
    obtain ⟨v, hv, h⟩ := Except.bind_eq_ok.mp h
    obtain ⟨rest, hrest, h⟩ := Except.bind_eq_ok.mp h
    rw [← Except.ok.inj h]
    exact .cons (hes e List.mem_cons_self v hv)
      (forall₂_of_foldAll hrest fun p hp => hes p (List.mem_cons_of_mem e hp))

/-- An expression with a value at compile time has a canonical one, if its constants have. -/
theorem Checked.fold_canonical {xs : List Variable} {e : Expr} (h : Checked xs e)
    (valid : ∀ x ∈ xs, x.Valid) (canonical : ∀ x ∈ xs, ∀ v, x.initial = some v → v.Canonical)
    {v : Value} (hv : e.fold = .ok v) : v.Canonical := by
  induction h generalizing v with
  | constant x =>
    rw [← Except.ok.inj hv]
    exact Value.canonical_ofComponents rfl _
  | @reference x declared =>
    have hv := Folding.eq_some_of_orNotConstant hv
    unfold Variable.constant? at hv
    split at hv
    · exact canonical x declared v hv
    · simp at hv
  | @binary op ty left right _ _ _ _ _ =>
    unfold Expr.fold at hv
    split at hv
    · obtain ⟨l, -, hv⟩ := Except.bind_eq_ok.mp hv
      obtain ⟨r, -, hv⟩ := Except.bind_eq_ok.mp hv
      exact Folding.canonical_binary hv
    · obtain ⟨l, -, hv⟩ := Except.bind_eq_ok.mp hv
      obtain ⟨r, -, hv⟩ := Except.bind_eq_ok.mp hv
      exact Folding.canonical_binary hv
    · simp at hv
  | assign => simp [Expr.fold] at hv
  | negate _ _ _ ih =>
    obtain ⟨x, hx, hv⟩ := Except.bind_eq_ok.mp hv
    exact Folding.canonical_negation (ih hx) hv
  | construct _ basic =>
    obtain ⟨values, -, hv⟩ := Except.bind_eq_ok.mp hv
    exact (Folding.made_of_construct hv).canonical (Ty.isStruct_of_isBasic basic)
  | @call f arguments known harguments accepted ih =>
    obtain ⟨values, hvalues, hv⟩ := Except.bind_eq_ok.mp hv
    have hall : List.Forall₂ (fun v e => v.Canonical ∧ v.ty = e.ty) values arguments :=
      forall₂_of_foldAll hvalues fun e he v hv => ⟨ih e he hv, (harguments e he).fold_ty valid hv⟩
    obtain ⟨hcanonical, htypes⟩ := (List.forall₂_and_left _ _).mp hall
    have htypes : values.map (·.ty) = arguments.map Expr.ty := by
      rw [← List.forall₂_eq_eq_eq, List.forall₂_map_left_iff, List.forall₂_map_right_iff]
      exact htypes
    rw [← htypes, List.forall₂_map_left_iff] at accepted
    exact f.canonical_evaluate known accepted hcanonical (Folding.eq_some_of_orNotConstant hv)
  | @member base index _ found ih =>
    obtain ⟨x, hx, hv⟩ := Except.bind_eq_ok.mp hv
    exact (ih hx).member? (Folding.eq_some_of_orNotConstant hv)
  | swizzle _ shape some few _ _ =>
    obtain ⟨x, -, hv⟩ := Except.bind_eq_ok.mp hv
    obtain ⟨_, -, hty, -⟩ := swizzleType_eq shape (by simpa using some) few
    exact (Folding.made_of_select hv).canonical (Ty.isStruct_of_ofComponents? hty)

end Expr

/-- Variables start with canonical values. -/
def Scope.Canonical (s : Scope) : Prop :=
  ∀ x ∈ s.declared, ∀ v, x.initial = some v → v.Canonical

namespace Phrase

theorem Initializer.canonical {s s' : Scope} {ks : Kinds} {ty : Ty} {q : Qualifier}
    {initial : Option Value} (h : Initializer ty q s ks initial s') (valid : s.Valid)
    (hs : s.Canonical) : ∀ v, initial = .some v → v.Canonical := by
  cases h with
  | none => simp
  | some _ value _ known =>
    obtain ⟨hchecked, -⟩ := value.checked valid.types
    have hv := hchecked.fold_canonical valid.declared hs (Expr.fold_of_constant? known)
    exact fun w hw => hv.convert (Except.toOption_eq_some.mp hw)

theorem Declaration.canonical {s s' : Scope} {ks : Kinds} (h : Declaration s ks s')
    (valid : s.Valid) (hs : s.Canonical) : s'.Canonical := by
  cases h with
  | type _ type =>
    unfold Scope.Canonical
    rw [type.scope.declared]
    exact hs
  | @object s₁ s₂ _ _ _ q ty name initial _ type _ _ starts =>
    have hs₁ : s₁.Canonical := by
      unfold Scope.Canonical
      rw [type.scope.declared]
      exact hs
    have hinitial := starts.canonical (valid.extend type.scope (type.proper valid.types).2) hs₁
    intro x hx
    rcases Scope.mem_place hx with rfl | hx
    · exact hinitial
    · rw [starts.scope.declared] at hx
      exact hs₁ x hx

theorem Declarations.canonical {s s' : Scope} {ks : Kinds} (h : Declarations s ks s')
    (valid : s.Valid) (hs : s.Canonical) : s'.Canonical := by
  induction h with
  | none => exact hs
  | more first _ ih => exact ih (first.valid valid) (first.canonical valid hs)

end Phrase

/-- A program that has a value at compile time has a canonical one. -/
theorem Program.canonical {source : String} {p : Program} (h : parse source = .ok p) {v : Value}
    (hv : p.expression.fold = .ok v) : v.Canonical := by
  obtain ⟨hvalid, hchecked⟩ := checked h
  obtain ⟨_, s, _, _, -, -, hdeclarations, hexpression, -⟩ := derives h
  refine hchecked.fold_canonical hvalid.declared ?_ hv
  rw [hexpression.scope.declared]
  exact hdeclarations.canonical .empty (by simp [Scope.Canonical, Scope.empty])

end ShaderExpr
