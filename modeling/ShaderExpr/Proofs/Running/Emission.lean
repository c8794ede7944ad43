import ShaderExpr.Proofs.Faults.Room
import ShaderExpr.Proofs.Running.Meaning
import ShaderExpr.Proofs.Running.Simulation

namespace ShaderExpr

open Relation

/-- What a run depends on besides the module: what operations do, what the variables hold before it,
    and which variables there are. -/
structure Setting where
  machine : Machine
  start : Nat → Datum
  xs : List Variable

/-- Opcodes that compute a datum from others. -/
def Opcode.isOperation : Opcode → Bool
  | .load | .accessChain => false
  | op => op.isComputed

/-- Opcodes of operations on data alone, without numbers behind them. -/
def Opcode.isPlain (op : Opcode) : Bool := op.isOperation && op.dataCount?.isNone

namespace Machine

variable {M : Machine} {op : Opcode} {operands : List UInt32} {σ : State}

theorem step_of_isOperation (h : op.isOperation) :
    M.step ⟨op, operands⟩ σ = M.compute op σ operands := by
  cases op <;> first
    | rfl
    | simp [Opcode.isOperation, Opcode.isComputed, Opcode.resultPosition?] at h

end Machine

namespace State

variable {σ σ' : State}

/-- Ids have data, one each. -/
def Have (σ : State) (ids : List Id) (data : List Datum) : Prop :=
  List.Forall₂ (fun id d => σ.values id = some d) ids data

theorem Have.mono {ids : List Id} {data : List Datum} (h : σ.Have ids data) (hext : σ.Extends σ') :
    σ'.Have ids data :=
  List.Forall₂.imp (fun id d => hext.values id d) h

theorem Have.append {ids ids' : List Id} {data data' : List Datum} (h : σ.Have ids data)
    (h' : σ.Have ids' data') : σ.Have (ids ++ ids') (data ++ data') :=
  List.rel_append h h'

theorem Have.replicate {id : Id} {d : Datum} (h : σ.values id = some d) (n : Nat) :
    σ.Have (List.replicate n id) (List.replicate n d) := by
  induction n with
  | zero => exact .nil
  | succ n ih => exact .cons h ih

theorem Have.mapM {ids : List Id} {data : List Datum} (h : σ.Have ids data) :
    ids.mapM σ.values = some data := by
  induction h with
  | nil => rfl
  | cons hid _ ih =>
    rw [List.mapM_cons, hid, ih]
    rfl

end State

namespace Builder

/-- A module under construction leads to a state in which the variables hold `memory`. What is not
    declared yet holds what it starts with, and what is has a type that can be declared. -/
structure Leads (S : Setting) (b : Builder) (σ : State) (memory : Nat → Datum) : Prop where
  reached : ∃ φ, b.Simulates S.machine S.start φ σ
  declared : ∀ k id, b.declared.lookup k = some id → σ.memory id = some (memory k)
  waiting : ∀ x ∈ S.xs, b.declared.lookup x.id = none →
    memory x.id = x.startDatum (S.start x.id)
  narrow : ∀ k id, b.declared.lookup k = some id → ∃ x ∈ S.xs, x.id = k ∧ x.ty.isNarrow

/-- From one state of building to a later one, keys and ids keep their meaning. -/
structure Advances (b : Builder) (σ : State) (b' : Builder) (σ' : State) : Prop where
  keeps : b.Keeps b'
  extends_ : σ.Extends σ'

variable {S : Setting} {b b' b'' : Builder} {σ σ' σ'' : State} {memory : Nat → Datum} {k : Key}
  {id : Id} {d : Datum}

namespace Advances

theorem refl (b : Builder) (σ : State) : Advances b σ b σ := ⟨.refl b, .refl σ⟩

theorem trans (h : Advances b σ b' σ') (h' : Advances b' σ' b'' σ'') : Advances b σ b'' σ'' :=
  ⟨h.keeps.trans h'.keeps, h.extends_.trans h'.extends_⟩

theorem value (h : Advances b σ b' σ') (hd : σ.values id = some d) : σ'.values id = some d :=
  h.extends_.values id d hd

end Advances

/-- Keys have their meaning. -/
theorem Leads.means (h : b.Leads S σ memory) (hk : b.find k = some id) : σ.Means k id := by
  obtain ⟨φ, hφ⟩ := h.reached
  exact hφ.means hk

/-- Nothing is declared in a new module, and variables hold what they start with. -/
theorem Leads.new {memory : Nat → Datum} (options : Options)
    (waiting : ∀ x ∈ S.xs, memory x.id = x.startDatum (S.start x.id)) :
    (Builder.new options).Leads S (.start fun _ => none) memory :=
  ⟨⟨_, .new _ _ options⟩, by simp [Builder.new], fun x hx _ => waiting x hx, by simp [Builder.new]⟩

/-- A module goes on to one with the same variables. -/
theorem Leads.holds (h : b.Leads S σ memory) {φ' : State}
    (reached : b'.Simulates S.machine S.start φ' σ') (same : b'.declared = b.declared)
    (holds : σ.Holds σ') : b'.Leads S σ' memory :=
  ⟨⟨φ', reached⟩, fun k id hk => holds id _ (h.declared k id (same ▸ hk)), same ▸ h.waiting,
    same ▸ h.narrow⟩

end Builder

namespace Build

open Builder

variable {α β : Type} {S : Setting} {b b' : Builder} {σ σ' : State}
  {memory memory' memory₁ memory₂ : Nat → Datum}

/-- Building from a module that leads to `σ`, where variables hold `memory`, fails, or the module
    leads on to where they hold `memory'`, as `Q` says of the result. A computation that builds is
    followed by the state that what it has built leads to. -/
def Arrives (S : Setting) (r : Build α) (b : Builder) (σ : State) (memory memory' : Nat → Datum)
    (Q : α → Builder → State → Prop) : Prop :=
  b.Leads S σ memory → ∀ a b', r b = .ok (a, b') →
    ∃ σ', b'.Leads S σ' memory' ∧ Advances b σ b' σ' ∧ Q a b' σ'

/-- The result has a datum, and variables hold what they held. -/
abbrev Yields (S : Setting) (r : Build Id) (b : Builder) (σ : State) (memory : Nat → Datum)
    (d : Datum) : Prop :=
  r.Arrives S b σ memory memory fun id _ σ' => σ'.values id = some d

namespace Arrives

variable {r : Build α} {f : α → Build β} {P Q : α → Builder → State → Prop}
  {R : β → Builder → State → Prop}

theorem mono (h : r.Arrives S b σ memory memory' P) (hPQ : ∀ a b' σ', b'.Leads S σ' memory' →
    Advances b σ b' σ' → P a b' σ' → Q a b' σ') : r.Arrives S b σ memory memory' Q := by
  intro hleads a b' hr
  obtain ⟨σ', hleads', hlater, hP⟩ := h hleads a b' hr
  exact ⟨σ', hleads', hlater, hPQ a b' σ' hleads' hlater hP⟩

theorem pure {a : α} (h : Q a b σ) : (pure a : Build α).Arrives S b σ memory memory Q := by
  intro hleads a' b' hr
  obtain ⟨rfl, rfl⟩ : a = a' ∧ b = b' := Prod.mk.inj (Except.ok.inj hr)
  exact ⟨σ, hleads, .refl b σ, h⟩

theorem throw {e : Fault} : (throw e : Build α).Arrives S b σ memory memory' Q := by
  intro _ a b' hr
  have hfault : (Except.error e : Except Fault (α × Builder)) = .ok (a, b') := hr
  simp at hfault

theorem bind (h : r.Arrives S b σ memory memory₁ P)
    (hf : ∀ a b₁ σ₁, Advances b σ b₁ σ₁ → P a b₁ σ₁ →
    (f a).Arrives S b₁ σ₁ memory₁ memory₂ R) : (r >>= f).Arrives S b σ memory memory₂ R := by
  intro hleads c b₂ hr
  obtain ⟨a, b₁, ha, hc⟩ := bind_eq_ok.mp hr
  obtain ⟨σ₁, hleads₁, hlater₁, hP⟩ := h hleads a b₁ ha
  obtain ⟨σ₂, hleads₂, hlater₂, hR⟩ := hf a b₁ σ₁ hlater₁ hP hleads₁ c b₂ hc
  exact ⟨σ₂, hleads₂, hlater₁.trans hlater₂, hR⟩

theorem map {g : α → β} (h : r.Arrives S b σ memory memory' fun a b' σ' => R (g a) b' σ') :
    (g <$> r).Arrives S b σ memory memory' R := by
  rw [map_eq_pure_bind]
  exact h.bind fun a b₁ σ₁ _ hR => .pure hR

theorem get_bind {f : Builder → Build β} (h : (f b).Arrives S b σ memory memory' R) :
    ((get : Build Builder) >>= f).Arrives S b σ memory memory' R := h

/-- A computation without a state, for those of its results that are no fault. -/
theorem except_bind {x : Except Fault α}
    (h : ∀ a, x = .ok a → (f a).Arrives S b σ memory memory' R) :
    ((liftM x : Build α) >>= f).Arrives S b σ memory memory' R := by
  intro hleads c b' hr
  cases x with
  | error cause =>
    have hfault : (Except.error cause : Except Fault (β × Builder)) = .ok (c, b') := hr
    simp at hfault
  | ok a => exact h a rfl hleads c b' hr

theorem ite {p : Prop} [Decidable p] {yes no : Build α}
    (hyes : p → yes.Arrives S b σ memory memory' Q) (hno : ¬p → no.Arrives S b σ memory memory' Q) :
    (if p then yes else no).Arrives S b σ memory memory' Q := by
  split
  · exact hyes ‹_›
  · exact hno ‹_›

/-- What else is known of the module that is built. -/
theorem attains {xs : List Variable} {casts : Bool} {T : α → Builder → Prop}
    (h : r.Arrives S b σ memory memory' Q) (h' : r.Attains xs casts b T) :
    r.Arrives S b σ memory memory' fun a b' σ' => Q a b' σ' ∧ b'.Sound xs casts ∧ T a b' := by
  intro hleads a b' hr
  obtain ⟨σ', hleads', hlater, hQ⟩ := h hleads a b' hr
  exact ⟨σ', hleads', hlater, hQ, (h' a b' hr).2⟩

/-- Data for the elements of a list, one after the other. -/
theorem mapM {l : List α} {f : α → Build Id} {g : α → Datum}
    (h : ∀ x ∈ l, ∀ b' σ', Advances b σ b' σ' → (f x).Yields S b' σ' memory (g x)) :
    (l.mapM f).Arrives S b σ memory memory fun ids _ σ' => σ'.Have ids (l.map g) := by
  induction l generalizing b σ with
  | nil => exact .pure .nil
  | cons x l ih =>
    rw [List.mapM_cons]
    refine (h x List.mem_cons_self b σ (.refl b σ)).bind fun id b₁ σ₁ hlater hid => ?_
    refine (ih fun z hz b' σ' hlater' => h z (List.mem_cons_of_mem x hz) b' σ'
      (hlater.trans hlater')).bind fun ids b₂ σ₂ hlater₂ hids => ?_
    exact .pure (.cons (hlater₂.value hid) hids)

/-- Requests that only define types, pointer types and constants. -/
theorem definitions {T : α → Builder → Prop} (h : r.Takes DefinitionStep b T) :
    r.Arrives S b σ memory memory fun a b' _ => T a b' := by
  intro hleads a b' hr
  obtain ⟨hsteps, hT⟩ := h a b' hr
  obtain ⟨φ, hφ⟩ := hleads.reached
  obtain ⟨φ', σ', hφ', hlarger⟩ := hφ.definitions hsteps
  exact ⟨σ', hleads.holds hφ' (declared_of_steps hsteps) hlarger.holds,
    ⟨keeps_of_definitions hsteps, hlarger.extends_⟩, hT⟩

end Arrives

/-- Building leads on to a module of which `Q` tells what its result is and what variables hold
    behind it, unless a limit of modules is in its way. -/
def Ends (S : Setting) (r : Build α) (b : Builder) (Q : α → State → (Nat → Datum) → Prop) : Prop :=
  (∃ cause, r b = .error cause ∧ cause.IsLimit) ∨
    ∃ a b' σ' memory', r b = .ok (a, b') ∧ b'.Leads S σ' memory' ∧ Q a σ' memory'

theorem Arrives.ends {r : Build α} {P : α → Builder → State → Prop}
    {Q : α → State → (Nat → Datum) → Prop} (h : r.Arrives S b σ memory memory' P) (runs : r.Runs b)
    (leads : b.Leads S σ memory) (hPQ : ∀ a b' σ', P a b' σ' → Q a σ' memory') : r.Ends S b Q := by
  cases hr : r b with
  | error cause => exact .inl ⟨cause, hr, runs cause hr⟩
  | ok result =>
    obtain ⟨a, b'⟩ := result
    obtain ⟨σ', hleads', -, hP⟩ := h leads a b' hr
    exact .inr ⟨a, b', σ', memory', hr, hleads', hPQ a b' σ' hP⟩

/-- Where the module has room for what is built, no limit is in the way. -/
theorem Ends.of_room {r : [Limits] → Build α} {Q : α → State → (Nat → Datum) → Prop}
    (h : Ends S r b Q) (agrees : Agrees r 0) (runs : ∀ [Limits], Runs r b) (room : HasRoom r b) :
    ∃ a b' σ' memory', r b = .ok (a, b') ∧ b'.Leads S σ' memory' ∧ Q a σ' memory' := by
  obtain ⟨cause, hcause, -⟩ | hends := h
  · obtain ⟨a, b', hr⟩ := agrees.exists_ok runs room
    simp [hr] at hcause
  · exact hends

theorem typeId_arrives (ty : Ty) : (typeId ty).Arrives S b σ memory memory fun id _ σ' =>
    σ'.types id = some ty.bare :=
  (Arrives.definitions (typeId_defines b ty)).mono fun _ _ _ hleads _ h =>
    hleads.means (k := .type ty) h.1

theorem valueId_yields (v : Value) : (valueId v).Yields S b σ memory v.datum :=
  (Arrives.definitions (valueId_takes b v)).mono fun _ _ _ hleads _ h =>
    hleads.means (k := .value v.ty v.data) h

theorem zeroId_yields (ty : Ty) : (zeroId ty).Yields S b σ memory (Machine.zeroDatum ty) :=
  valueId_yields _

theorem oneId_yields (ty : Ty) : (oneId ty).Yields S b σ memory (Machine.oneDatum ty) := by
  unfold oneId Machine.oneDatum
  cases ty.component? with
  | none => exact .throw
  | some s => exact valueId_yields _

/-- An instruction with a result that gets its meaning in a single step. The step may use that the
    result type is declared, and must leave the other ids and the memory alone. -/
theorem emit_arrives {op : Opcode} {ty : Ty} {operands : List UInt32}
    {Q : Id → Builder → State → Prop}
    (h : ∀ b₁ σ₁ type id, Advances b σ b₁ σ₁ → b₁.Leads S σ₁ memory → σ₁.types type = some ty.bare →
      ∃ σ', S.machine.step ⟨op, type :: id :: operands⟩ σ₁ = some σ' ∧
        (∀ u, u ≠ id → σ₁.Agree u σ') ∧ σ'.memory = σ₁.memory ∧ ∀ b', Q id b' σ') :
    (emit op ty operands).Arrives S b σ memory memory Q := by
  refine (typeId_arrives ty).bind fun type b₁ σ₁ hlater₁ htype => ?_
  intro hleads id b' hr
  obtain ⟨id', b₂, hfresh, hr⟩ := bind_eq_ok.mp hr
  obtain ⟨rfl, rfl, hmax⟩ := fresh_eq_ok hfresh
  obtain ⟨_, b₃, hadd, hr⟩ := bind_eq_ok.mp hr
  obtain ⟨rfl, -⟩ := add_eq_ok hadd
  obtain ⟨rfl, rfl⟩ := Prod.mk.inj (Except.ok.inj hr)
  obtain ⟨σ', hstep, hagree, hmemory, hQ⟩ := h b₁ σ₁ type b₁.nextId hlater₁ hleads htype
  obtain ⟨φ, hφ⟩ := hleads.reached
  obtain ⟨hφ', hextends, hholds⟩ := hφ.result hmax hstep hagree hmemory
  exact ⟨σ', hleads.holds hφ' rfl hholds, ⟨.refl b₁, hextends⟩, hQ _⟩

/-- An operation on data that ids have, and on numbers behind them. `count` says where the ids end,
    which the opcode must agree with. -/
theorem emit_counted {op : Opcode} (hop : op.isOperation) (ty : Ty) (ids : List Id)
    (numbers : List UInt32) {data : List Datum} (hdata : σ.Have ids data)
    (count : op.dataCount?.getD (ids ++ numbers).length = ids.length) :
    (emit op ty (ids ++ numbers)).Yields S b σ memory (S.machine.perform op ty data numbers) := by
  refine emit_arrives fun b₁ σ₁ type id hlater _ htype => ?_
  refine ⟨σ₁.withValue id (S.machine.perform op ty data numbers), ?_, fun u hu => ?_, rfl,
    fun _ => Function.update_self _ _ _⟩
  · rw [Machine.step_of_isOperation hop]
    simp only [Machine.compute, count, List.take_left, List.drop_left, htype,
      (hdata.mono hlater.extends_).mapM]
    rfl
  · exact ⟨rfl, Function.update_of_ne hu _ _, rfl, rfl⟩

/-- An operation on data that ids have. -/
theorem emit_yields {op : Opcode} (plain : op.isPlain) (ty : Ty) {ids : List Id}
    {data : List Datum} (hdata : σ.Have ids data) :
    (emit op ty ids).Yields S b σ memory (S.machine.perform op ty data []) := by
  obtain ⟨hop, hall⟩ : op.isOperation ∧ op.dataCount? = none := by
    simpa [Opcode.isPlain] using plain
  have h : (emit op ty (ids ++ [])).Yields S b σ memory (S.machine.perform op ty data []) :=
    emit_counted hop ty ids [] hdata (by rw [hall, List.append_nil]; rfl)
  rwa [List.append_nil] at h

theorem emit_construct_yields (ty : Ty) {ids : List Id} {data : List Datum}
    (hdata : σ.Have ids data) :
    (emit .compositeConstruct ty ids).Yields S b σ memory (Machine.combined ty data) :=
  emit_yields rfl ty hdata

theorem emit_extract_yields (ty : Ty) (path : List Nat) {x : Id} {d : Datum}
    (small : ∀ i ∈ path, i < 4294967296) (hx : σ.values x = some d) :
    (emit .compositeExtract ty (x :: path.map UInt32.ofNat)).Yields S b σ memory
      (d.follow path) := by
  have hpath : (path.map UInt32.ofNat).map (·.toNat) = path := by
    rw [List.map_map]
    exact (List.map_congr_left fun i hi => UInt32.toNat_ofNat_of_lt' (small i hi)).trans
      (List.map_id path)
  have hfollow : S.machine.perform .compositeExtract ty [d] (path.map UInt32.ofNat) =
      d.follow path := congrArg d.follow hpath
  rw [← hfollow]
  exact emit_counted rfl ty [x] (path.map UInt32.ofNat) (.cons hx .nil) rfl

end Build

end ShaderExpr
