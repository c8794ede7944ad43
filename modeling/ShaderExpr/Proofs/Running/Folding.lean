import ShaderExpr.Proofs.Build.Access
import ShaderExpr.Proofs.Running.Arithmetic
import ShaderExpr.Proofs.Running.Construction

namespace ShaderExpr

open Folding

/-- Constants hold their values. -/
def Constants (xs : List Variable) (memory : Nat → Datum) : Prop :=
  ∀ x ∈ xs, ∀ v, x.constant? = some v → memory x.id = v.datum

/-- The only component of a scalar is its first. -/
theorem Ty.Selects.pick_eq {whole : Ty} {indexes : List Nat} (h : whole.Selects indexes) {k : Nat}
    (hk : k < indexes.length) : pick whole indexes k = indexes[k] := by
  have hin := h.inside indexes[k] (List.getElem_mem hk)
  unfold pick
  rcases h.shape with ⟨s, rfl⟩ | ⟨s, n, rfl⟩
  · exact (Nat.lt_one_iff.mp hin).symm
  · simp [Ty.isScalar, hk]

/-- What is selected from a selection is one of its components. -/
theorem Ty.Selects.inside_of_swizzleType {whole : Ty} {current indexes : List Nat}
    (h : whole.Selects current)
    (h' : (Expr.swizzleType whole current.length).Selects indexes) :
    ∀ i ∈ indexes, i < current.length := by
  intro i hi
  have hin := h'.inside i hi
  obtain ⟨s, -, ⟨hone, htype⟩ | ⟨n, hn, htype⟩⟩ := h.swizzleType_cases
  · rw [htype] at hin
    rw [hone]
    exact hin
  · have hbounds := n.toNat_bounds
    rw [htype] at hin
    have hin : i < max n.toNat 1 := hin
    omega

namespace Location

/-- A location is read with a type. -/
structure HasType (l : Location) (ty : Ty) : Prop where
  whole : l.selected = none → l.whole = ty
  part : ∀ indexes, l.selected = some indexes →
    l.whole.Selects indexes ∧ Expr.swizzleType l.whole indexes.length = ty

/-- A location has a value: of a whole, it is the whole or what is selected of it. -/
structure Has (l : Location) (memory : Nat → Datum) (v w : Value) : Prop where
  ty : w.ty = l.whole
  datum : w.datum = l.wholeDatum memory
  whole : l.selected = none → v = w
  part : ∀ indexes, l.selected = some indexes →
    v.ty = Expr.swizzleType l.whole indexes.length ∧
      ∀ k < indexes.length, v.cell k = w.cell (pick l.whole indexes k)

variable {M : Machine} {l : Location} {memory : Nat → Datum} {ty : Ty} {v w : Value}
  {indexes : List Nat}

theorem selected_select_of_none (h : l.selected = none) (indexes : List Nat) :
    (l.select indexes).selected = some indexes := by
  rw [Location.select, h]

theorem selected_select_of_some {current : List Nat} (h : l.selected = some current)
    (indexes : List Nat) : (l.select indexes).selected = some (indexes.map (current.getD · 0)) := by
  rw [Location.select, h]

theorem HasType.select (h : l.HasType ty) (selects : ty.Selects indexes) :
    (l.select indexes).HasType (Expr.swizzleType ty indexes.length) := by
  cases hselected : l.selected with
  | none =>
    have hselect := selected_select_of_none hselected indexes
    refine ⟨by simp [hselect], fun chosen hchosen => ?_⟩
    obtain rfl := Option.some.inj (hselect.symm.trans hchosen)
    rw [← h.whole hselected] at selects ⊢
    exact ⟨selects, rfl⟩
  | some current =>
    have hselect := selected_select_of_some hselected indexes
    refine ⟨by simp [hselect], fun chosen hchosen => ?_⟩
    obtain rfl := Option.some.inj (hselect.symm.trans hchosen)
    obtain ⟨hcurrent, rfl⟩ := h.part current hselected
    obtain ⟨composed, hcomposed, hwhole, -, htype⟩ := hcurrent.compose selects
    obtain ⟨rfl, -⟩ := List.eq_map_getD_of_mapM hcomposed
    exact ⟨hwhole, htype⟩

/-- What is read from a location is its value. -/
theorem Has.read (h : l.Has memory v w) (hty : l.HasType ty) : l.read M memory = v.datum := by
  unfold Location.read Location.ty
  cases hselected : l.selected with
  | none => rw [h.whole hselected, ← h.datum]
  | some indexes =>
    obtain ⟨hselects, -⟩ := hty.part indexes hselected
    obtain ⟨hvty, hcells⟩ := h.part indexes hselected
    obtain ⟨s, -, hs, hcount⟩ := hselects.components
    dsimp only
    rw [← h.datum]
    rw [← h.ty] at hselects hvty hcells hs hcount ⊢
    rw [Machine.selectComponents_eq_build hselects, ← hvty]
    refine (Value.datum_eq (hvty ▸ Ty.isBasic_of_component? hs) fun k hk => hcells k ?_).symm
    rw [hvty, hcount] at hk
    exact hk

/-- Components selected from the value of a location are the value of the selection. -/
theorem Has.select (h : l.Has memory v w) (hty : l.HasType v.ty) (selects : v.ty.Selects indexes)
    {u : Value} (hu : Folding.select (Expr.swizzleType v.ty indexes.length) indexes v = .ok u) :
    (l.select indexes).Has memory u w := by
  obtain ⟨s, hs, hs', hcount⟩ := selects.components
  have hcells (k : Nat) (hk : k < indexes.length) : u.cell k = v.cell (pick v.ty indexes k) :=
    cell_of_select hs' hs hcount hu (hcount.symm ▸ hk)
  have huty := ty_of_select hu
  cases hselected : l.selected with
  | none =>
    have hselect := selected_select_of_none hselected indexes
    refine ⟨h.ty, h.datum, by simp [hselect], fun chosen hchosen => ?_⟩
    obtain rfl := Option.some.inj (hselect.symm.trans hchosen)
    rw [h.whole hselected, h.ty] at huty hcells
    exact ⟨huty, hcells⟩
  | some current =>
    have hselect := selected_select_of_some hselected indexes
    refine ⟨h.ty, h.datum, by simp [hselect], fun chosen hchosen => ?_⟩
    obtain rfl := Option.some.inj (hselect.symm.trans hchosen)
    obtain ⟨hcurrent, hvty⟩ := hty.part current hselected
    obtain ⟨-, hvcells⟩ := h.part current hselected
    obtain ⟨hcomposed, htype⟩ := (hty.select selects).part _ hselect
    refine ⟨huty.trans htype.symm, fun k hk => ?_⟩
    have hk' : k < indexes.length := by simpa using hk
    have hin : indexes[k] < current.length :=
      hcurrent.inside_of_swizzleType (hvty ▸ selects) _ (List.getElem_mem hk')
    rw [hcells k hk', selects.pick_eq hk', hvcells _ hin, hcurrent.pick_eq hin]
    rw [hcomposed.pick_eq hk]
    simp [hin]

end Location

namespace Expr.Checked

variable {M : Machine} {xs : List Variable} {e : Expr} {l : Location} {memory : Nat → Datum}
  {v : Value}

/-- A selection has no members. -/
theorem selected_eq_none {ty : Ty} (h : l.HasType ty) {index : Nat}
    (found : index < ty.members.length) : l.selected = none := by
  cases hselected : l.selected with
  | none => rfl
  | some indexes =>
    obtain ⟨hselects, rfl⟩ := h.part indexes hselected
    obtain ⟨s, -, ⟨-, htype⟩ | ⟨n, -, htype⟩⟩ := hselects.swizzleType_cases <;>
      simp [htype, Ty.members] at found

/-- The location of an expression is read with its type. -/
theorem location_hasType (h : e.Checked xs) (hl : e.location? = some l) : l.HasType e.ty := by
  induction h generalizing l with
  | reference =>
    obtain rfl := Option.some.inj hl
    exact ⟨fun _ => rfl, by simp⟩
  | member _ found ih =>
    obtain ⟨base, hbase, rfl⟩ := Option.map_eq_some_iff.mp hl
    have hnone := selected_eq_none (ih hbase) found
    exact ⟨fun _ => rfl, by simp [hnone]⟩
  | swizzle _ shape any few inside ih =>
    obtain ⟨base, hbase, rfl⟩ := Option.map_eq_some_iff.mp hl
    exact (ih hbase).select ⟨shape, any, few, inside⟩
  | constant | binary | assign | negate | construct | call => simp [location?] at hl

/-- The location of an expression with a value at compile time has this value. -/
theorem location_has (h : e.Checked xs) (valid : ∀ x ∈ xs, x.Valid)
    (constants : Constants xs memory) (hl : e.location? = some l) (hv : e.fold = .ok v) :
    ∃ w, l.Has memory v w := by
  induction h generalizing l v with
  | @reference x declared =>
    obtain rfl := Option.some.inj hl
    have hconstant := eq_some_of_orNotConstant hv
    refine ⟨v, (Checked.reference declared).fold_ty valid hv, ?_, fun _ => rfl, by simp⟩
    exact (constants x declared v hconstant).symm
  | @member base index hbase found ih =>
    obtain ⟨l, hl', rfl⟩ := Option.map_eq_some_iff.mp hl
    have hnone := selected_eq_none (hbase.location_hasType hl') found
    obtain ⟨u, hu, hv'⟩ := Except.bind_eq_ok.mp hv
    have hmember := eq_some_of_orNotConstant hv'
    obtain ⟨w, hw⟩ := ih hl' hu
    obtain rfl := hw.whole hnone
    refine ⟨v, (Checked.member hbase found).fold_ty valid hv, ?_, fun _ => rfl, by simp [hnone]⟩
    rw [← Machine.part_member hmember, hw.datum]
    exact (Datum.follow_append _ l.path [index]).symm
  | @swizzle base letters indexes hbase shape any few inside ih =>
    obtain ⟨l, hl', rfl⟩ := Option.map_eq_some_iff.mp hl
    obtain ⟨u, hu, hv⟩ := Except.bind_eq_ok.mp hv
    obtain ⟨w, hw⟩ := ih hl' hu
    have hty := hbase.fold_ty valid hu
    rw [← hty] at hv
    exact ⟨w, hw.select (hty ▸ hbase.location_hasType hl') (hty ▸ ⟨shape, any, few, inside⟩) hv⟩
  | constant | binary | assign | negate | construct | call => simp [location?] at hl

/-- What is read where an expression has a value at compile time is this value. -/
theorem read_location (h : e.Checked xs) (valid : ∀ x ∈ xs, x.Valid)
    (constants : Constants xs memory) (hl : e.location? = some l) (hv : e.fold = .ok v) :
    l.read M memory = v.datum := by
  obtain ⟨w, hw⟩ := h.location_has valid constants hl hv
  exact hw.read (h.location_hasType hl)

end Expr.Checked

namespace Expr

mutual
/-- Somewhere in the expression, a builtin function is called. -/
def callsBuiltin : Expr → Bool
  | constant _ | reference _ => false
  | binary _ _ left right => left.callsBuiltin || right.callsBuiltin
  | assign _ _ target value => target.callsBuiltin || value.callsBuiltin
  | negate operand => operand.callsBuiltin
  | construct _ arguments => anyCallsBuiltin arguments
  | call (.builtin _) _ => true
  | call (.constructor _) arguments => anyCallsBuiltin arguments
  | member base _ | swizzle base _ _ => base.callsBuiltin
def anyCallsBuiltin : List Expr → Bool
  | [] => false
  | e :: rest => e.callsBuiltin || anyCallsBuiltin rest
end

theorem anyCallsBuiltin_eq (es : List Expr) : anyCallsBuiltin es = es.any callsBuiltin := by
  induction es with
  | nil => rfl
  | cons e es ih => rw [anyCallsBuiltin, ih, List.any_cons]

variable {M : Machine} {memory : Nat → Datum} {e left right base : Expr} {es : List Expr}
  {vs : List Value} {ty : Ty} {v : Value}

/-- If an expression has a value at compile time, it computes this value, and leaves what variables
    hold as it is. -/
def Folds (M : Machine) (memory : Nat → Datum) (e : Expr) : Prop :=
  ∀ v, e.fold = .ok v → v.ty = e.ty ∧ e.eval M memory = (v.datum, memory)

/-- Expressions that all have values compute them one after the other. -/
theorem evalAll_of_foldAll : ∀ {es : List Expr} {vs : List Value}, foldAll es = .ok vs →
    (∀ e ∈ es, e.Folds M memory) →
      evalAll M es memory = (vs.map Value.quantity, memory) ∧ vs.map (·.ty) = es.map Expr.ty
  | [], vs, h, _ => by
    obtain rfl := Except.ok.inj h
    exact ⟨evalAll_nil, rfl⟩
  | e :: es, vs, h, hall => by
    obtain ⟨v, hv, h⟩ := Except.bind_eq_ok.mp h
    obtain ⟨rest, hrest, h⟩ := Except.bind_eq_ok.mp h
    obtain rfl := Except.ok.inj h
    obtain ⟨hty, heval⟩ := hall e List.mem_cons_self v hv
    obtain ⟨hevalAll, htypes⟩ := evalAll_of_foldAll hrest
      fun e' he' => hall e' (List.mem_cons_of_mem e he')
    rw [evalAll_cons, heval, hevalAll, List.map_cons, List.map_cons, List.map_cons, htypes, hty]
    exact ⟨by rw [Value.quantity, hty], rfl⟩

theorem evalConverted_of_foldAll : ∀ {es : List Expr} {ts : List Ty} {vs : List Value},
    foldAll es = .ok vs → (∀ e ∈ es, e.Folds M memory) →
      evalConverted M es ts memory =
        (List.zipWith (fun v t => M.convert v.datum v.ty t) vs ts, memory)
  | [], ts, vs, h, _ => by
    obtain rfl := Except.ok.inj h
    exact evalConverted_nil ts
  | e :: es, [], vs, h, _ => by
    rw [evalConverted_nil_right, List.zipWith_nil_right]
  | e :: es, t :: ts, vs, h, hall => by
    obtain ⟨v, hv, h⟩ := Except.bind_eq_ok.mp h
    obtain ⟨rest, hrest, h⟩ := Except.bind_eq_ok.mp h
    obtain rfl := Except.ok.inj h
    obtain ⟨hty, heval⟩ := hall e List.mem_cons_self v hv
    rw [evalConverted_cons, heval,
      evalConverted_of_foldAll hrest fun e' he' => hall e' (List.mem_cons_of_mem e he'),
      List.zipWith_cons_cons, hty]

namespace Folds

theorem binary {op : Operator} (hl : left.Folds M memory) (hr : right.Folds M memory)
    (typed : op.resultType left.ty right.ty = .ok ty) :
    (Expr.binary op ty left right).Folds M memory := by
  intro v hv
  have hparts : IsEvaluated op ∧ ∃ l r, left.fold = .ok l ∧ right.fold = .ok r ∧
      Folding.binary op ty l r = .ok v := by
    unfold fold at hv
    split at hv
    · rename_i hfamily
      obtain ⟨l, hl, hv⟩ := Except.bind_eq_ok.mp hv
      obtain ⟨r, hr, hv⟩ := Except.bind_eq_ok.mp hv
      exact ⟨.inl hfamily, l, r, hl, hr, hv⟩
    · rename_i hfamily
      obtain ⟨l, hl, hv⟩ := Except.bind_eq_ok.mp hv
      obtain ⟨r, hr, hv⟩ := Except.bind_eq_ok.mp hv
      exact ⟨.inr hfamily, l, r, hl, hr, hv⟩
    · simp at hv
  obtain ⟨hop, l, r, hlv, hrv, hv⟩ := hparts
  obtain ⟨hlty, hl⟩ := hl l hlv
  obtain ⟨hrty, hr⟩ := hr r hrv
  rw [← hlty, ← hrty] at typed
  refine ⟨ty_of_binary hv, ?_⟩
  rw [eval_of_none rfl, computed_binary, hl, hr, ← hlty, ← hrty]
  exact congrArg (·, memory) (Machine.binary_datum hop typed hv)

theorem negate (h : e.Folds M memory) (basic : e.ty.isBasic) : (Expr.negate e).Folds M memory := by
  intro v hv
  obtain ⟨x, hx, hv⟩ := Except.bind_eq_ok.mp hv
  obtain ⟨hty, hx⟩ := h x hx
  refine ⟨(ty_of_negation hv).trans hty, ?_⟩
  rw [eval_of_none rfl, computed_negate, hx, ← hty]
  exact congrArg (·, memory) (Machine.negation_datum (hty ▸ basic) hv)

theorem construct (h : ∀ e ∈ es, e.Folds M memory) (basic : ty.isBasic)
    (filled : ty.FilledBy (es.map Expr.ty)) : (Expr.construct ty es).Folds M memory := by
  intro v hv
  obtain ⟨vs, hvs, hv⟩ := Except.bind_eq_ok.mp hv
  obtain ⟨hevalAll, htypes⟩ := evalAll_of_foldAll hvs h
  rw [← htypes] at filled
  refine ⟨ty_of_construct hv, ?_⟩
  rw [eval_of_none rfl, computed_construct, hevalAll]
  exact congrArg (·, memory) (Machine.construct_datum basic filled hv)

theorem make (h : ∀ e ∈ es, e.Folds M memory) (struct : ty.isStruct)
    (accepted : List.Forall₂ (fun t u => t.convertsTo u = true) (es.map Expr.ty)
      (Function.constructor ty).parameters) : (Expr.call (.constructor ty) es).Folds M memory := by
  intro v hv
  obtain ⟨vs, hvs, hv⟩ := Except.bind_eq_ok.mp hv
  have hv := eq_some_of_orNotConstant hv
  rw [← (evalAll_of_foldAll hvs h).2] at accepted
  refine ⟨Function.ty_of_evaluate hv, ?_⟩
  rw [eval_of_none rfl, computed_call, evalConverted_of_foldAll hvs h]
  exact congrArg (·, memory) (Machine.make_datum struct accepted hv)

end Folds

end Expr

namespace Expr.Checked

variable {M : Machine} {xs : List Variable} {e : Expr} {memory : Nat → Datum}

/-- Where an expression has a location, its value is read there. -/
theorem folds_of_computed (h : e.Checked xs) (valid : ∀ x ∈ xs, x.Valid)
    (constants : Constants xs memory) (computed : ∀ v, e.location? = none → e.fold = .ok v →
      e.computed M memory = (v.datum, memory)) : e.Folds M memory := by
  intro v hv
  refine ⟨h.fold_ty valid hv, ?_⟩
  cases hl : e.location? with
  | some l => rw [eval_of_location hl, h.read_location valid constants hl hv]
  | none => rw [eval_of_none hl, computed v hl hv]

/-- An expression with a value at compile time computes this value, and leaves what variables hold
    as it is. This rests on constants, which hold their values all the time because nothing is ever
    assigned to them. -/
theorem folds (h : e.Checked xs) (valid : ∀ x ∈ xs, x.Valid) (constants : Constants xs memory)
    (plain : e.callsBuiltin = false) : e.Folds M memory := by
  induction h with
  | constant x =>
    refine (Checked.constant x).folds_of_computed valid constants fun v _ hv => ?_
    rw [computed_constant, Except.ok.inj hv]
  | reference declared =>
    exact (Checked.reference declared).folds_of_computed valid constants
      fun v hl _ => by simp [location?] at hl
  | assign =>
    intro v hv
    simp [fold] at hv
  | @binary op ty left right _ _ typed ihl ihr =>
    obtain ⟨hpl, hpr⟩ : left.callsBuiltin = false ∧ right.callsBuiltin = false := by
      simpa [callsBuiltin] using plain
    exact (ihl hpl).binary (ihr hpr) typed
  | negate _ basic _ ih => exact (ih plain).negate basic
  | @construct ty arguments _ basic _ filled ih =>
    rw [callsBuiltin, anyCallsBuiltin_eq] at plain
    have hparts := fun e he => ih e he (by simpa using List.any_eq_false.mp plain e he)
    exact .construct hparts basic filled
  | @call f arguments known _ accepted ih =>
    cases f with
    | builtin => simp [callsBuiltin] at plain
    | constructor ty =>
      rw [callsBuiltin, anyCallsBuiltin_eq] at plain
      exact .make (fun e he => ih e he (by simpa using List.any_eq_false.mp plain e he)) known.1
        accepted
  | @member base index hbase found ih =>
    refine (Checked.member hbase found).folds_of_computed valid constants fun v _ hv => ?_
    obtain ⟨u, hu, hv⟩ := Except.bind_eq_ok.mp hv
    obtain ⟨-, hu⟩ := ih plain u hu
    rw [computed_member, hu]
    exact congrArg (·, memory) (Machine.part_member (eq_some_of_orNotConstant hv))
  | @swizzle base letters indexes hbase shape any few inside ih =>
    refine (Checked.swizzle hbase shape any few inside).folds_of_computed valid constants
      fun v _ hv => ?_
    obtain ⟨u, hu, hv⟩ := Except.bind_eq_ok.mp hv
    obtain ⟨hty, hu⟩ := ih plain u hu
    rw [← hty] at hv shape inside
    rw [computed_swizzle, hu, ← hty]
    exact congrArg (·, memory) (Machine.select_datum ⟨shape, any, few, inside⟩ hv)

/-- An assignment goes to the variable that it names. -/
theorem variableId_of_location? : ∀ {e : Expr} {l : Location}, e.location? = some l →
    ∃ x, e.assigned? = some x ∧ l.variableId = x.id
  | .reference x, l, h => ⟨x, rfl, Option.some.inj h ▸ rfl⟩
  | .member base index, l, h => by
    obtain ⟨l, hl, rfl⟩ := Option.map_eq_some_iff.mp h
    obtain ⟨x, hx, hid⟩ := variableId_of_location? hl
    exact ⟨x, hx, hid⟩
  | .swizzle base letters indexes, l, h => by
    obtain ⟨l, hl, rfl⟩ := Option.map_eq_some_iff.mp h
    obtain ⟨x, hx, hid⟩ := variableId_of_location? hl
    exact ⟨x, hx, hid⟩
  | .constant _, _, h | .binary .., _, h | .assign .., _, h | .negate _, _, h
  | .construct .., _, h | .call .., _, h => by simp [location?] at h

theorem assigned?_mem (h : e.Checked xs) {x : Variable} (hx : e.assigned? = some x) : x ∈ xs := by
  induction h with
  | reference declared => exact Option.some.inj hx ▸ declared
  | member _ _ ih => exact ih hx
  | swizzle _ _ _ _ _ ih => exact ih hx
  | constant | binary | assign | negate | construct | call => simp [assigned?] at hx

/-- Nothing is assigned to a constant. The target of an assignment is writable, and the ids of
    variables are distinct, so no constant is stored under the id of the target. -/
theorem constants_write {target : Expr} (h : target.Checked xs) (ids : (xs.map (·.id)).Nodup)
    (writable : ∀ x, target.assigned? = some x → x.qualifier.isReadOnly = false) {l : Location}
    (hl : target.location? = some l) (constants : Constants xs memory) (d : Datum) :
    Constants xs (l.write M memory d) := by
  intro y hy v hv
  obtain ⟨x, hx, hid⟩ := variableId_of_location? hl
  -- a constant at this place would be read-only
  have hne : y.id ≠ l.variableId := by
    intro heq
    obtain rfl : y = x := List.inj_on_of_nodup_map ids hy (h.assigned?_mem hx) (heq.trans hid)
    have hreadOnly := writable y hx
    unfold Variable.constant? at hv
    split at hv
    · rename_i hconstant
      simp [Qualifier.isReadOnly, hconstant] at hreadOnly
    · simp at hv
  rw [Location.write, Function.update_of_ne hne]
  exact constants y hy v hv

theorem constants_evalAll : ∀ {es : List Expr} {memory : Nat → Datum},
    (∀ e ∈ es, ∀ memory, Constants xs memory → Constants xs (e.eval M memory).2) →
      Constants xs memory → Constants xs (evalAll M es memory).2
  | [], memory, _, h => by
    rw [evalAll_nil]
    exact h
  | e :: es, memory, hall, h => by
    rw [evalAll_cons]
    exact constants_evalAll (fun e' he' => hall e' (List.mem_cons_of_mem e he'))
      (hall e List.mem_cons_self memory h)

theorem constants_evalConverted : ∀ {es : List Expr} {ts : List Ty} {memory : Nat → Datum},
    (∀ e ∈ es, ∀ memory, Constants xs memory → Constants xs (e.eval M memory).2) →
      Constants xs memory → Constants xs (evalConverted M es ts memory).2
  | [], ts, memory, _, h => by
    rw [evalConverted_nil]
    exact h
  | e :: es, [], memory, _, h => by
    rw [evalConverted_nil_right]
    exact h
  | e :: es, t :: ts, memory, hall, h => by
    rw [evalConverted_cons]
    exact constants_evalConverted (fun e' he' => hall e' (List.mem_cons_of_mem e he'))
      (hall e List.mem_cons_self memory h)

/-- Constants hold their values behind an expression as before it. -/
theorem constants_eval (h : e.Checked xs) (ids : (xs.map (·.id)).Nodup)
    (constants : Constants xs memory) : Constants xs (e.eval M memory).2 := by
  have hread {e : Expr} {memory : Nat → Datum} (h : Constants xs memory)
      (hcomputed : Constants xs (e.computed M memory).2) : Constants xs (e.eval M memory).2 := by
    cases hl : e.location? with
    | some l =>
      rw [eval_of_location hl]
      exact h
    | none =>
      rw [eval_of_none hl]
      exact hcomputed
  induction h generalizing memory with
  | constant =>
    refine hread constants ?_
    rw [computed_constant]
    exact constants
  | reference =>
    refine hread constants ?_
    rw [computed_reference]
    exact constants
  | binary _ _ _ ihl ihr =>
    refine hread constants ?_
    rw [computed_binary]
    exact ihr (ihl constants)
  | @assign op ty target value htarget _ _ writable _ _ _ ihv =>
    refine hread constants ?_
    rw [computed_assign]
    split
    · exact constants
    · rename_i l hl
      exact htarget.constants_write ids writable hl (ihv constants) _
  | negate _ _ _ ih =>
    refine hread constants ?_
    rw [computed_negate]
    exact ih constants
  | construct _ _ _ _ ih =>
    refine hread constants ?_
    rw [computed_construct]
    exact constants_evalAll (fun e he memory h => ih e he h) constants
  | call _ _ _ ih =>
    refine hread constants ?_
    rw [computed_call]
    exact constants_evalConverted (fun e he memory h => ih e he h) constants
  | member _ _ ih =>
    refine hread constants ?_
    rw [computed_member]
    exact ih constants
  | swizzle _ _ _ _ _ ih =>
    refine hread constants ?_
    rw [computed_swizzle]
    exact ih constants

end Expr.Checked

end ShaderExpr
