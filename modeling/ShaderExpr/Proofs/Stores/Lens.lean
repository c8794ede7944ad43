import ShaderExpr.Proofs.Faults.Expressions
import ShaderExpr.Proofs.Running.Expressions
import ShaderExpr.Proofs.Stores.Chains

namespace ShaderExpr

open Machine Builder

namespace Place

variable {p : Place} {l : Location} {b : Builder} {σ : State} {ty : Ty}

/-- A place that is a location has the type that the location is read with. -/
theorem At.hasType (h : p.At l b σ) (typed : l.HasType ty) : p.HasType ty := by
  constructor
  · rw [h.selected, h.whole]
    exact typed.whole
  · rw [h.selected, h.whole]
    exact typed.part

end Place

namespace Build

/-- Code that uses the place of an expression. -/
def through [Limits] {α : Type} (e : Expr) (use : Place → Build α) : Build α := do
  match ← place? e with
  | some p => use p
  | none => throw .noPlace

variable {α : Type} {S : Setting} {b : Builder} {σ : State} {memory : Nat → Datum}
  {e : Expr} {x : Variable}

/-- Variables of types with components all through, which start with values of their types. -/
def Storable (xs : List Variable) : Prop :=
  (xs.map (·.id)).Nodup ∧ ∀ x ∈ xs, x.ty.isComplete ∧ ∀ v, x.initial = some v → v.ty = x.ty

theorem Storable.startable {xs : List Variable} (h : Storable xs) : Startable xs :=
  fun x hx v hv => ((h.2 x hx).2 v hv).symm ▸ (h.2 x hx).1

/-- A place that is found is the location of the expression. -/
theorem place?_at (storable : Storable S.xs) (leads : b.Leads S σ memory) (he : e.Checked S.xs)
    {p : Place} {b₁ : Builder} (hr : place? e b = .ok (some p, b₁)) :
    ∃ l σ₁, e.location? = some l ∧ b₁.Leads S σ₁ memory ∧ Advances b σ b₁ σ₁ ∧ p.At l b₁ σ₁ := by
  obtain ⟨σ₁, hleads₁, hlater, hrel, -⟩ := place?_arrives storable.1 he leads (some p) b₁ hr
  cases hl : e.location? with
  | none =>
    rw [hl] at hrel
    cases hrel
  | some l =>
    rw [hl] at hrel
    cases hrel with
    | some hp => exact ⟨l, σ₁, rfl, hleads₁, hlater, hp⟩

/-- Code that uses the place of something that can be assigned to ends where it ends at its
    location. -/
theorem through_ends (storable : Storable S.xs) (leads : b.Leads S σ memory) (he : e.Checked S.xs)
    (assignable : e.isAssignable) {l : Location} (hl : e.location? = some l) {use : Place → Build α}
    {Q : α → State → (Nat → Datum) → Prop}
    (h : ∀ p b₁ σ₁, b₁.Leads S σ₁ memory → Advances b σ b₁ σ₁ → p.At l b₁ σ₁ →
      (use p).Ends S b₁ Q) : (through e use).Ends S b Q := by
  cases hr : place? e b with
  | error cause =>
    have hfault : through e use b = .error cause := by
      change (place? e b >>= fun r => _) = _
      rw [hr]
      rfl
    exact .inl ⟨cause, hfault, place?_runs storable.startable he cause hr⟩
  | ok result =>
    obtain ⟨p?, b₁⟩ := result
    obtain ⟨p, rfl⟩ := Option.isSome_iff_exists.mp (isSome_of_place? assignable hr)
    obtain ⟨l', σ₁, hl', hleads₁, hlater, hp⟩ := place?_at storable leads he hr
    obtain rfl := Option.some.inj (hl.symm.trans hl')
    have hsame : through e use b = use p b₁ := by
      change (place? e b >>= fun r => _) = _
      rw [hr]
      rfl
    rw [Ends, hsame]
    exact h p b₁ σ₁ hleads₁ hlater hp

/-- Code that uses the place of an expression has what it needs, as far as its use has. -/
theorem through_runs [Limits] {xs : List Variable} (startable : Startable xs) (he : e.Checked xs)
    (assignable : e.isAssignable) {use : Place → Build α}
    (h : ∀ p b, p.HasType e.ty → (use p).Runs b) : (through e use).Runs b := by
  refine (place?_runs startable he).bind fun p? b₁ hp => ?_
  obtain ⟨p, rfl⟩ := Option.isSome_iff_exists.mp (isSome_of_place? assignable hp)
  exact h p b₁ (place?_hasType he hp)

theorem through_agrees {xs : List Variable} (he : e.WellTyped xs) {use : [Limits] → Place → Build α}
    (h : ∀ p, Agrees (use p) 0) : Agrees (through e fun p => use p) 0 := by
  have hplace : Agrees (place? e) 0 := place?_has (T := agreeing xs) he
  refine hplace.and_then fun p? => ?_
  cases p? with
  | none => exact .throw _
  | some p => exact h p

/-- Loads and stores through a chain reach their end wherever the module has room for their code. -/
theorem through_of_room (storable : Storable S.xs) (he : e.Checked S.xs)
    (assignable : e.isAssignable) {use : [Limits] → Place → Build α}
    (agrees : ∀ p, Agrees (use p) 0) (runs : ∀ [Limits] p b, p.HasType e.ty → Runs (use p) b)
    {Q : α → State → (Nat → Datum) → Prop} (h : (through e fun p => use p).Ends S b Q)
    (room : HasRoom (through e fun p => use p) b) :
    ∃ a b' σ' memory', through e (fun p => use p) b = .ok (a, b') ∧ b'.Leads S σ' memory' ∧
      Q a σ' memory' :=
  h.of_room (through_agrees he.wellTyped agrees)
    (through_runs storable.startable he assignable runs) room

variable {p : Place} {l : Location} {d d' : Datum} {stored stored' : Id}

theorem store_load_arrives (hp : p.At l b σ) (hd : σ.values stored = some d) :
    (do store p stored; load p).Arrives S b σ memory (l.write S.machine memory d)
      fun loaded _ σ' =>
        σ'.values loaded = some (l.read S.machine (l.write S.machine memory d)) :=
  (store_arrives hp hd).bind fun _ _ _ hlater _ => load_yields (hp.mono hlater)

theorem load_store_arrives (hp : p.At l b σ) :
    (do let loaded ← load p; store p loaded).Arrives S b σ memory
      (l.write S.machine memory (l.read S.machine memory)) fun _ _ _ => True :=
  (load_yields hp).bind fun _ _ _ hlater hloaded => store_arrives (hp.mono hlater) hloaded

theorem store_store_arrives (hp : p.At l b σ) (hd : σ.values stored = some d)
    (hd' : σ.values stored' = some d') :
    (do store p stored; store p stored').Arrives S b σ memory
      (l.write S.machine (l.write S.machine memory d) d') fun _ _ _ => True :=
  (store_arrives hp hd).bind fun _ _ _ hlater _ =>
    store_arrives (hp.mono hlater) (hlater.value hd')

/-- Loads and stores through a chain of members and swizzles obey the laws of a lens, wherever the
    module has got before: a load gives what was stored just before, and components of the variable
    that the chain does not name, and other variables, hold what they held; storing what a load gave
    changes nothing; and of two stores, the second one counts. The chain is assignable, so it names
    no component twice, without which the first law would fail. `held` says that the variable holds
    data of its type, and `hstored` and `hstored'` that the ids to be stored have data of values of
    the type of the chain. Variables have ids of their own and types with components all through, as
    declarations leave them, which is what `storable` says. -/
theorem through_lens (storable : Storable S.xs) (leads : b.Leads S σ memory) (he : e.Checked S.xs)
    (assignable : e.isAssignable) (hx : e.assigned? = some x) (held : x.ty.Holds (memory x.id))
    {v w : Value} (hv : v.ty = e.ty) (hw : w.ty = e.ty)
    (hstored : σ.values stored = some v.datum) (hstored' : σ.values stored' = some w.datum) :
    (through e fun p => do store p stored; load p).Ends S b (fun loaded σ' memory' =>
      σ'.values loaded = some v.datum ∧
        (∀ k ∉ e.positions, (memory' x.id).cell? k = (memory x.id).cell? k) ∧
        ∀ k ≠ x.id, memory' k = memory k) ∧
    (through e fun p => do let loaded ← load p; store p loaded).Ends S b
      (fun _ _ memory' => memory' = memory) ∧
    ∃ final, (through e fun p => store p stored').Ends S b (fun _ _ memory' => memory' = final) ∧
      (through e fun p => do store p stored; store p stored').Ends S b
        (fun _ _ memory' => memory' = final) := by
  obtain ⟨l, y, hl, hy, hid, hnames⟩ := Expr.location_names he assignable
  obtain rfl := Option.some.inj (hx.symm.trans hy)
  rw [← hid] at held ⊢
  have hv : e.ty.Holds v.datum := hv ▸ v.holds
  have hw : e.ty.Holds w.datum := hw ▸ w.holds
  refine ⟨through_ends storable leads he assignable hl fun p b₁ σ₁ hleads₁ hlater hp => ?_,
    through_ends storable leads he assignable hl fun p b₁ σ₁ hleads₁ hlater hp => ?_,
    l.write S.machine memory w.datum,
    through_ends storable leads he assignable hl fun p b₁ σ₁ hleads₁ hlater hp => ?_,
    through_ends storable leads he assignable hl fun p b₁ σ₁ hleads₁ hlater hp => ?_⟩
  · have hruns : (do store p stored; load p).Runs b₁ :=
      (store_runs p stored).bind fun _ _ _ => load_runs (hp.hasType hnames.typed).ty?
    refine (store_load_arrives hp (hlater.value hstored)).ends hruns hleads₁
      fun loaded _ _ hloaded => ⟨?_, fun k hk => ?_, fun k hk => ?_⟩
    · rw [hloaded, hnames.read_write held hv]
    · exact hnames.cell?_write held hv hk
    · exact Function.update_of_ne hk _ _
  · have hruns : (do let loaded ← load p; store p loaded).Runs b₁ :=
      (load_runs (hp.hasType hnames.typed).ty?).bind fun loaded _ _ => store_runs p loaded
    exact (load_store_arrives hp).ends hruns hleads₁ fun _ _ _ _ => hnames.write_read held
  · exact (store_arrives hp (hlater.value hstored')).ends (store_runs p stored') hleads₁
      fun _ _ _ _ => rfl
  · have hruns : (do store p stored; store p stored').Runs b₁ :=
      (store_runs p stored).bind fun _ _ _ => store_runs p stored'
    exact (store_store_arrives hp (hlater.value hstored) (hlater.value hstored')).ends hruns hleads₁
      fun _ _ _ _ => hnames.write_write held hv hw

/-- A variable of the body function with a scalar and a vector. -/
def lamp : Variable where
  id := 0
  name := "lamp"
  ty := .struct none [("level", .scalar .float), ("color", .vector .int .four)]
  qualifier := { storage := .body }
  initial := none

/-- Two components of the vector, through two swizzles. -/
def lampChain : Expr :=
  .swizzle (.swizzle (.member (.reference lamp) 1) .color [2, 1, 0]) .position [1, 0]

def lampSetting : Setting := ⟨⟨fun _ _ _ _ => .nothing⟩, fun _ => (Value.zero lamp.ty).datum, [lamp]⟩

def lampValue : Value := .ofComponents (.vector .int .two) [.int 5, .int 7]

/-- The chain names the third and the fourth component of the variable, in this order. The code of the
    store and of the load behind it is there, and the load gives what was stored. -/
theorem through_lens_lamp : lampChain.positions = [2, 3] ∧
    ∃ b σ stored, b.Leads lampSetting σ (fun _ => (Value.zero lamp.ty).datum) ∧
      σ.values stored = some lampValue.datum ∧
      ∃ loaded b' σ' memory',
        through lampChain (fun p => do store p stored; load p) b = .ok (loaded, b') ∧
          b'.Leads lampSetting σ' memory' ∧ σ'.values loaded = some lampValue.datum ∧
          ∀ k ∉ [2, 3], (memory' lamp.id).cell? k = (Value.zero lamp.ty).datum.cell? k := by
  have hnew : (Builder.new {}).Leads lampSetting (.start fun _ => none)
      fun _ => (Value.zero lamp.ty).datum :=
    .new {} (by simp [lampSetting, lamp, Variable.startDatum, Variable.start?])
  have hstorable : Storable lampSetting.xs := by
    refine ⟨by decide, fun x hx => ?_⟩
    obtain rfl := List.mem_singleton.mp hx
    exact ⟨by decide, by simp [lamp]⟩
  have hcolor : (Expr.member (.reference lamp) 1).Checked lampSetting.xs :=
    .member (.reference List.mem_cons_self) (by decide)
  have hchecked : lampChain.Checked lampSetting.xs :=
    .swizzle (.swizzle hcolor (.inr ⟨.int, .four, rfl⟩) (by decide) (by decide) (by decide))
      (.inr ⟨.int, .three, rfl⟩) (by decide) (by decide) (by decide)
  have hpositions : lampChain.positions = [2, 3] := by decide
  have hok : ((do
      let stored ← valueId lampValue
      through lampChain fun p => do store p stored; load p : Build Id) (.new {})).toOption.isSome := by
    decide +kernel
  obtain ⟨result, hresult⟩ := Option.isSome_iff_exists.mp hok
  obtain ⟨stored, b, hrun, hthrough⟩ := bind_eq_ok.mp (Except.toOption_eq_some.mp hresult)
  obtain ⟨σ, hleads, -, hstored⟩ := valueId_yields lampValue hnew stored b hrun
  obtain ⟨hlens, -, -⟩ := through_lens hstorable hleads hchecked (by decide) (x := lamp) rfl
    (Value.holds (Value.zero lamp.ty)) (v := lampValue) (w := lampValue) rfl rfl hstored hstored
  rw [hpositions] at hlens
  obtain ⟨cause, hfault, -⟩ | ⟨loaded, b', σ', memory', hr, hleads', hloaded, hothers, -⟩ := hlens
  · rw [hfault] at hthrough
    cases hthrough
  · exact ⟨hpositions, b, σ, stored, hleads, hstored, loaded, b', σ', memory', hr, hleads', hloaded,
      hothers⟩

end Build

end ShaderExpr
