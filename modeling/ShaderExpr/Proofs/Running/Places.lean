import ShaderExpr.Proofs.Build.Code
import ShaderExpr.Proofs.Running.Operators

namespace ShaderExpr

open Machine Builder

theorem Value.datum_ofScalar (x : Scalar) : (Value.ofScalar x).datum = .scalar x := by
  have hty : (Value.ofScalar x).ty = .scalar x.type := rfl
  rw [Value.datum, Value.data_ofScalar, hty, Ty.datum, Ty.datum.scalarDatum,
    Scalar.ofBytes?_bytes, Option.getD_some]

/-- An index is read back from its constant. -/
theorem Datum.index?_ofNat {i : Nat} (small : i < 2147483648) :
    (Datum.scalar (.int (Int32.ofNat i))).index? = some i := by
  rw [Datum.index?, Int32.toInt_ofNat_of_lt small, Int.toNat_natCast]

namespace Place

/-- A place is a location: its variable is declared, and its indexes have their data. So loads from
    it read the location, and stores write to it. -/
structure At (p : Place) (l : Location) (b : Builder) (σ : State) : Prop where
  declared : b.declared.lookup l.variableId = some p.variableId
  path : List.Forall₂ (fun id i => (σ.values id).bind Datum.index? = some i) p.indexes l.path
  whole : p.whole = l.whole
  selected : p.selected = l.selected
  small : ∀ indexes, p.selected = some indexes → ∀ i ∈ indexes, i < 4294967296

variable {p : Place} {l : Location} {b b' : Builder} {σ σ' : State}

theorem At.mono (h : p.At l b σ) (later : Advances b σ b' σ') : p.At l b' σ' := by
  refine ⟨later.keeps (.var l.variableId) _ h.declared, h.path.imp fun id i hi => ?_, h.whole,
    h.selected, h.small⟩
  obtain ⟨d, hd, hi⟩ := Option.bind_eq_some_iff.mp hi
  rw [later.value hd]
  exact hi

/-- A load gives the type that the location is read with. -/
theorem At.ty (h : p.At l b σ) {ty : Ty} (hty : p.ty? = .ok ty) : ty = l.ty := by
  unfold Place.ty? at hty
  unfold Location.ty
  rw [← h.selected, ← h.whole]
  cases hselected : p.selected with
  | none =>
    rw [hselected] at hty
    exact (Except.ok.inj hty).symm
  | some indexes =>
    rw [hselected] at hty
    dsimp only at hty ⊢
    unfold Expr.swizzleType
    cases hs : p.whole.component? with
    | none =>
      rw [hs] at hty
      dsimp only at hty
      split at hty
      · exact (Except.ok.inj hty).symm
      · simp at hty
    | some s =>
      rw [hs] at hty
      dsimp only at hty
      rw [Option.bind_some]
      split at hty
      · rename_i ht
        rw [ht, Option.getD_some]
        exact (Except.ok.inj hty).symm
      · simp at hty

/-- The same components are selected. -/
theorem At.select (h : p.At l b σ) {indexes : List Nat} {p' : Place}
    (small : ∀ i ∈ indexes, i < 4294967296) (hp' : p.select indexes = .ok p') :
    p'.At (l.select indexes) b σ := by
  unfold Place.select at hp'
  unfold Location.select
  rw [← h.selected]
  cases hselected : p.selected with
  | none =>
    rw [hselected] at hp'
    obtain rfl := Except.ok.inj hp'
    exact ⟨h.declared, h.path, h.whole, rfl, fun _ heq => Option.some.inj heq ▸ small⟩
  | some current =>
    rw [hselected] at hp'
    dsimp only at hp'
    split at hp'
    · rename_i composed hcomposed
      obtain rfl := Except.ok.inj hp'
      have hall := List.eq_map_getD_of_mapM hcomposed
      refine ⟨h.declared, h.path, h.whole, congrArg some hall.1, fun _ heq i hi => ?_⟩
      obtain rfl := Option.some.inj heq
      exact h.small current hselected i (hall.2 i hi)
    · simp at hp'

end Place

namespace Build

variable {S : Setting} {b : Builder} {σ : State} {memory : Nat → Datum} {p : Place} {l : Location}
  {x : Id} {d : Datum}

/-- A request for a variable does not change what variables hold. -/
theorem variableId_arrives {x : Variable} (hx : x ∈ S.xs) :
    (variableId x).Arrives S b σ memory memory fun id b' _ =>
      b'.declared.lookup x.id = some id := by
  intro hleads id b' hr
  have htakes : (variableId x).Takes (Step S.xs fun _ => True) b _ := variableId_takes b hx
  obtain ⟨hsteps, -⟩ := htakes id b' hr
  have hkeeps : b.Keeps b' := .of_steps (fun _ _ => Step.keeps) hsteps
  obtain ⟨φ, hφ⟩ := hleads.reached
  obtain ⟨φ', σ', hφ', hextends, hholds, hdeclared, hsame | ⟨hnew, hsame, hnarrow, hstart⟩⟩ :=
    hφ.variableId hr
  · exact ⟨σ', hleads.holds hφ' hsame hholds, ⟨hkeeps, hextends⟩, hdeclared⟩
  · refine ⟨σ', ⟨⟨φ', hφ'⟩, fun k u hk => ?_, fun y hy hlookup => ?_, fun k u hk => ?_⟩,
      ⟨hkeeps, hextends⟩, hdeclared⟩
    · rw [hsame, List.lookup_cons_eq] at hk
      split at hk
      · rename_i hkey
        rw [hkey, ← Option.some.inj hk, hstart, hleads.waiting x hx hnew]
      · exact hholds u _ (hleads.declared k u hk)
    · rw [hsame, List.lookup_cons_eq] at hlookup
      split at hlookup
      · simp at hlookup
      · exact hleads.waiting y hy hlookup
    · rw [hsame, List.lookup_cons_eq] at hk
      split at hk
      · rename_i hkey
        exact ⟨x, hx, hkey.symm, hnarrow⟩
      · exact hleads.narrow k u hk

theorem placeOf_arrives {x : Variable} (hx : x ∈ S.xs) :
    (placeOf x).Arrives S b σ memory memory fun p b' σ' => p.At ⟨x.id, [], x.ty, none⟩ b' σ' :=
  (variableId_arrives hx).bind fun _ _ _ _ hid =>
    .pure ⟨hid, .nil, rfl, rfl, by simp⟩

theorem memberPlace_arrives (hp : p.At l b σ) {index : Nat}
    (small : p.selected = none → index < 2147483648) (ty : Ty) :
    (memberPlace p index ty).Arrives S b σ memory memory fun p' b' σ' =>
      p'.At { l with path := l.path ++ [index], whole := ty } b' σ' := by
  unfold memberPlace
  refine .ite (fun _ => .throw) fun hselected => ?_
  refine (valueId_yields _).bind fun id b₁ σ₁ hlater₁ hid => .pure ?_
  have hp := hp.mono hlater₁
  refine ⟨hp.declared, ?_, rfl, hp.selected, hp.small⟩
  refine List.rel_append hp.path (.cons ?_ .nil)
  rw [hid, Option.bind_some, Value.datum_ofScalar,
    Datum.index?_ofNat (small (by simpa using hselected))]

/-- The pointer to what the path of a place leads to. -/
theorem pointer_arrives (hp : p.At l b σ) :
    (pointer p).Arrives S b σ memory memory fun id _ σ' =>
      σ'.pointers id = some ⟨p.variableId, l.path⟩ := by
  unfold pointer
  have hbase {b' : Builder} {σ' : State} (hleads : b'.Leads S σ' memory)
      (hdeclared : b'.declared.lookup l.variableId = some p.variableId) :
      σ'.pointers p.variableId = some ⟨p.variableId, []⟩ :=
    hleads.means (k := .var l.variableId) hdeclared
  refine .ite (fun hempty => ?_) fun _ => ?_
  -- without a path, the variable is the pointer itself
  · intro hleads
    have hpath : l.path = [] := by
      have hlength := hp.path.length_eq
      rw [List.isEmpty_iff.mp hempty] at hlength
      exact List.eq_nil_of_length_eq_zero hlength.symm
    rw [hpath]
    exact Arrives.pure (hbase hleads hp.declared) hleads
  · refine (Arrives.definitions (pointerTypeId_takes b p.whole p.storage)).bind
      fun type b₁ σ₁ hlater₁ _ => ?_
    have hp₁ := hp.mono hlater₁
    intro hleads id b' hr
    obtain ⟨id', b₂, hfresh, hr⟩ := bind_eq_ok.mp hr
    obtain ⟨rfl, rfl, hmax⟩ := fresh_eq_ok hfresh
    obtain ⟨_, b₃, hadd, hr⟩ := bind_eq_ok.mp hr
    obtain ⟨rfl, -⟩ := add_eq_ok hadd
    obtain ⟨rfl, rfl⟩ := Prod.mk.inj (Except.ok.inj hr)
    obtain ⟨φ, hφ⟩ := hleads.reached
    have hpath : p.indexes.mapM (fun i => (σ₁.values i).bind Datum.index?) = some l.path := by
      have h := Option.mapM_eq_of_forall₂ (g := id) hp₁.path.flip fun _ _ h => h
      rwa [List.map_id] at h
    have hstep : S.machine.step ⟨.accessChain, type :: b₁.nextId :: p.variableId :: p.indexes⟩ σ₁ =
        some (σ₁.withPointer b₁.nextId ⟨p.variableId, l.path⟩) := by
      rw [Machine.step_accessChain, State.access, hbase hleads hp₁.declared]
      simp only [Option.bind_eq_bind, Option.bind_some, hpath, List.nil_append]
    obtain ⟨hφ', hextends, hholds⟩ := hφ.result hmax hstep
      (fun u hu => ⟨rfl, rfl, Function.update_of_ne hu _ _, rfl⟩) rfl
    exact ⟨_, hleads.holds hφ' rfl hholds, ⟨.refl b₁, hextends⟩, Function.update_self _ _ _⟩

/-- A load of a whole. -/
theorem emit_load_yields (hp : p.At l b σ) {pointer : Id}
    (hpointer : σ.pointers pointer = some ⟨p.variableId, l.path⟩) :
    (emit .load p.whole [pointer]).Yields S b σ memory (l.wholeDatum memory) := by
  refine emit_arrives fun b₁ σ₁ type id hlater hleads _ => ?_
  have hmemory := hleads.declared _ _ (hp.mono hlater).declared
  refine ⟨σ₁.withValue id (l.wholeDatum memory), ?_, fun u hu =>
    ⟨rfl, Function.update_of_ne hu _ _, rfl, rfl⟩, rfl, fun _ => Function.update_self _ _ _⟩
  rw [Machine.step_load, State.loadFrom, hlater.extends_.pointers _ _ hpointer]
  simp only [Option.bind_eq_bind, Option.bind_some, State.load?, hmemory, Option.map_some]
  rfl

/-- A load reads the location. -/
theorem load_yields (hp : p.At l b σ) : (load p).Yields S b σ memory (l.read S.machine memory) := by
  unfold load Location.read
  refine (pointer_arrives hp).bind fun pointer b₁ σ₁ hlater₁ hpointer => ?_
  have hp := hp.mono hlater₁
  refine (emit_load_yields hp hpointer).bind fun loaded b₂ σ₂ hlater₂ hloaded => ?_
  have hp := hp.mono hlater₂
  rw [← hp.selected]
  cases hselected : p.selected with
  | none => exact .pure hloaded
  | some indexes =>
    refine .except_bind fun ty hty => ?_
    rw [hp.ty hty, hp.whole]
    exact selectComponents_yields _ _ (hp.small indexes hselected) hloaded

theorem storedWhole_yields (hp : p.At l b σ) {pointer : Id}
    (hpointer : σ.pointers pointer = some ⟨p.variableId, l.path⟩) (hx : σ.values x = some d) :
    (storedWhole p pointer x).Yields S b σ memory (l.written S.machine memory d) := by
  unfold storedWhole Location.written
  rw [← hp.selected]
  cases hselected : p.selected with
  | none => exact .pure hx
  | some indexes =>
    dsimp only
    rw [← hp.whole]
    split
    · exact .pure hx
    · exact (emit_load_yields hp hpointer).bind fun current b₁ σ₁ hlater₁ hcurrent =>
        replaceComponents_yields _ _ hcurrent (hlater₁.value hx)

/-- A store writes to the location. -/
theorem store_arrives (hp : p.At l b σ) (hx : σ.values x = some d) :
    (store p x).Arrives S b σ memory (l.write S.machine memory d) fun _ _ _ => True := by
  unfold store
  refine (pointer_arrives hp).bind fun pointer b₁ σ₁ hlater₁ hpointer => ?_
  have hp := hp.mono hlater₁
  refine (storedWhole_yields hp hpointer (hlater₁.value hx)).bind
    fun stored b₂ σ₂ hlater₂ hstored => ?_
  have hp := hp.mono hlater₂
  have hpointer := hlater₂.extends_.pointers _ _ hpointer
  intro hleads _ b' hadd
  obtain ⟨rfl, -⟩ := add_eq_ok hadd
  obtain ⟨φ, hφ⟩ := hleads.reached
  have hmemory := hleads.declared _ _ hp.declared
  let whole := (memory l.variableId).replace l.path (l.written S.machine memory d)
  have hstep : S.machine.step ⟨.store, [pointer, stored]⟩ σ₂ =
      some (σ₂.withContents p.variableId whole) := by
    rw [Machine.step_store, State.storeTo, hpointer]
    simp only [Option.bind_eq_bind, Option.bind_some, hstored, State.store?, hmemory,
      Option.map_some]
    rfl
  have hbelow : p.variableId.toNat < b₂.nextId.toNat := by
    obtain ⟨front, behind, hsplit, -⟩ := List.lookup_eq_some_iff.mp hp.declared
    exact (hφ.held (l.variableId, p.variableId) (by simp [hsplit])).1
  have hφ' := hφ.code hstep
    ⟨fun _ _ h => h, fun _ _ h => h, fun _ _ h => h⟩ fun u hu =>
      ⟨rfl, rfl, rfl, Function.update_of_ne (by rintro rfl; omega) _ _⟩
  refine ⟨_, ⟨⟨φ, hφ'⟩, fun k u hk => ?_, fun y hy hlookup => ?_, hleads.narrow⟩,
    ⟨.refl b₂, fun _ _ h => h, fun _ _ h => h, fun _ _ h => h⟩, trivial⟩
  · change b₂.declared.lookup k = some u at hk
    unfold Location.write
    by_cases hkey : k = l.variableId
    · rw [hkey, hp.declared] at hk
      rw [hkey, ← Option.some.inj hk, Function.update_self]
      exact Function.update_self _ _ _
    -- two variables have two ids, so the others hold what they held
    · have hne : u ≠ p.variableId := by
        rintro rfl
        exact hkey (hφ.distinct k l.variableId _ hk hp.declared)
      rw [Function.update_of_ne hkey]
      exact (Function.update_of_ne hne _ _).trans (hleads.declared k u hk)
  · change b₂.declared.lookup y.id = none at hlookup
    have hne : y.id ≠ l.variableId := by
      intro heq
      rw [heq, hp.declared] at hlookup
      simp at hlookup
    unfold Location.write
    rw [Function.update_of_ne hne]
    exact hleads.waiting y hy hlookup

end Build

end ShaderExpr
