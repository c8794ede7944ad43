import ShaderExpr.Proofs.Interning.Traces
import ShaderExpr.Proofs.Layout.Sections
import ShaderExpr.Proofs.Running.Front

namespace ShaderExpr

open Relation

namespace State

/-- Ids keep what they mean. -/
structure Extends (σ σ' : State) : Prop where
  types : ∀ id t, σ.types id = some t → σ'.types id = some t
  values : ∀ id d, σ.values id = some d → σ'.values id = some d
  pointers : ∀ id p, σ.pointers id = some p → σ'.pointers id = some p

/-- Variables keep what they hold. -/
def Holds (σ σ' : State) : Prop := ∀ id d, σ.memory id = some d → σ'.memory id = some d

/-- An id has no meaning. -/
structure Free (σ : State) (id : Id) : Prop where
  types : σ.types id = none
  values : σ.values id = none
  pointers : σ.pointers id = none
  memory : σ.memory id = none

/-- Two states give an id the same meaning. -/
structure Agree (id : Id) (σ σ' : State) : Prop where
  types : σ'.types id = σ.types id
  values : σ'.values id = σ.values id
  pointers : σ'.pointers id = σ.pointers id
  memory : σ'.memory id = σ.memory id

variable {σ σ' σ'' : State} {id : Id}

theorem Free.agree (h : σ.Free id) (agree : σ.Agree id σ') : σ'.Free id :=
  ⟨agree.types.trans h.types, agree.values.trans h.values, agree.pointers.trans h.pointers,
    agree.memory.trans h.memory⟩

theorem Free.or (h : σ.Free id) (h' : σ'.Free id) : (σ.or σ').Free id :=
  ⟨by simp [State.or, h.types, h'.types], by simp [State.or, h.values, h'.values],
    by simp [State.or, h.pointers, h'.pointers], by simp [State.or, h.memory, h'.memory]⟩

namespace Extends

theorem refl (σ : State) : σ.Extends σ := ⟨fun _ _ h => h, fun _ _ h => h, fun _ _ h => h⟩

theorem trans (h : σ.Extends σ') (h' : σ'.Extends σ'') : σ.Extends σ'' :=
  ⟨fun id t ht => h'.types id t (h.types id t ht),
    fun id d hd => h'.values id d (h.values id d hd),
    fun id p hp => h'.pointers id p (h.pointers id p hp)⟩

/-- An id without a meaning may get any. -/
theorem of_agree (free : σ.Free id) (agree : ∀ u, u ≠ id → σ.Agree u σ') : σ.Extends σ' := by
  have hkeep {α : Type} {f g : Id → Option α} (h : ∀ u, u ≠ id → g u = f u) (hid : f id = none)
      (u : Id) (a : α) (ha : f u = some a) : g u = some a := by
    have hne : u ≠ id := by
      rintro rfl
      simp [hid] at ha
    rw [h u hne, ha]
  exact ⟨hkeep (fun u hu => (agree u hu).types) free.types,
    hkeep (fun u hu => (agree u hu).values) free.values,
    hkeep (fun u hu => (agree u hu).pointers) free.pointers⟩

theorem means (h : σ.Extends σ') {k : Key} (hk : σ.Means k id) : σ'.Means k id := by
  cases k with
  | type ty => exact h.types id _ hk
  | pointer => trivial
  | value => exact h.values id _ hk
  | var => exact h.pointers id _ hk

end Extends

/-- Meanings and contents of an id are kept where nothing is added to them. -/
theorem Free.agree_or (h : σ'.Free id) : σ.Agree id (σ.or σ') :=
  ⟨by simp [State.or, h.types], by simp [State.or, h.values], by simp [State.or, h.pointers],
    by simp [State.or, h.memory]⟩

theorem free_blank (id : Id) : blank.Free id := ⟨rfl, rfl, rfl, rfl⟩

theorem free_withType {u : Id} (hu : u ≠ id) (ty : Ty) : (blank.withType id ty).Free u :=
  ⟨Function.update_of_ne hu _ _, rfl, rfl, rfl⟩

theorem free_withValue {u : Id} (hu : u ≠ id) (d : Datum) : (blank.withValue id d).Free u :=
  ⟨rfl, Function.update_of_ne hu _ _, rfl, rfl⟩

theorem agree_withVariable {u : Id} (hu : u ≠ id) (d : Datum) :
    σ.Agree u (σ.withVariable id d) :=
  ⟨rfl, rfl, Function.update_of_ne hu _ _, Function.update_of_ne hu _ _⟩

theorem extends_or (σ σ' : State) : σ.Extends (σ.or σ') :=
  ⟨fun _ _ => Option.or_eq_some, fun _ _ => Option.or_eq_some, fun _ _ => Option.or_eq_some⟩

theorem holds_or (σ σ' : State) : σ.Holds (σ.or σ') := fun _ _ => Option.or_eq_some

/-- What is new in a state has no meaning in the one before. -/
theorem or_eq_of_agree (h : ∀ id, σ.Agree id σ' ∨ σ.Free id) : σ.or σ' = σ' := by
  have hor {α : Type} {f g : Id → Option α} (h : ∀ id, g id = f id ∨ f id = none) :
      (fun id => (f id).or (g id)) = g := by
    funext id
    rcases h id with heq | hnone
    · rw [heq, Option.or_self]
    · rw [hnone, Option.none_or]
  unfold or
  rw [hor fun id => (h id).imp (·.types) (·.types), hor fun id => (h id).imp (·.values) (·.values),
    hor fun id => (h id).imp (·.pointers) (·.pointers),
    hor fun id => (h id).imp (·.memory) (·.memory)]

/-- From one state to another one, variables are declared and nothing else. -/
structure Declares (σ σ' : State) : Prop where
  types : σ'.types = σ.types
  values : σ'.values = σ.values
  free : ∀ id, σ'.Free id → σ.Free id

theorem Declares.trans (h : σ.Declares σ') (h' : σ'.Declares σ'') : σ.Declares σ'' :=
  ⟨h'.types.trans h.types, h'.values.trans h.values, fun id hid => h.free id (h'.free id hid)⟩

theorem declares_withPointer (id : Id) (p : Pointer) : σ.Declares (σ.withPointer id p) := by
  refine ⟨rfl, rfl, fun u hu => ⟨hu.types, hu.values, ?_, hu.memory⟩⟩
  have hne : u ≠ id := by
    rintro rfl
    simpa [withPointer] using hu.pointers
  exact (Function.update_of_ne hne _ _).symm.trans hu.pointers

theorem declares_withContents (id : Id) (d : Datum) : σ.Declares (σ.withContents id d) := by
  refine ⟨rfl, rfl, fun u hu => ⟨hu.types, hu.values, hu.pointers, ?_⟩⟩
  have hne : u ≠ id := by
    rintro rfl
    simpa [withContents] using hu.memory
  exact (Function.update_of_ne hne _ _).symm.trans hu.memory

theorem declares_of_declareVariable {operands : List UInt32}
    (h : σ.declareVariable operands = some σ') : σ.Declares σ' := by
  unfold declareVariable at h
  split at h
  · rw [← Option.some.inj h]
    exact declares_withPointer _ _
  · rw [← Option.some.inj h]
    exact declares_withPointer _ _
  · obtain ⟨d, -, h⟩ := Option.bind_eq_some_iff.mp h
    rw [← Option.some.inj h]
    exact (declares_withPointer _ _).trans (declares_withContents _ _)
  · simp at h

end State

namespace Machine

variable {M : Machine} {σ σ' : State} {is : List Instruction}

theorem declares_of_exec (h : ∀ i ∈ is, i.op = .var ∨ i.op = .functionParameter)
    (hrun : M.exec is σ = some σ') : σ.Declares σ' := by
  induction is generalizing σ with
  | nil =>
    rw [← Option.some.inj hrun]
    exact ⟨rfl, rfl, fun _ h => h⟩
  | cons i is ih =>
    obtain ⟨σ₁, hstep, hrun⟩ := Option.bind_eq_some_iff.mp hrun
    have hfirst : σ.Declares σ₁ := by
      obtain ⟨op, operands⟩ := i
      obtain rfl | rfl : op = .var ∨ op = .functionParameter := h _ List.mem_cons_self
      · exact State.declares_of_declareVariable hstep
      · exact State.declares_of_declareVariable hstep
    exact hfirst.trans (ih (fun j hj => h j (List.mem_cons_of_mem i hj)) hrun)

end Machine

namespace Ty

mutual
/-- No struct in the type has more members than a declaration has room for. -/
def isNarrow : Ty → Bool
  | .struct _ members => decide (members.length < Instruction.maxWordCount) && membersNarrow members
  | .void | .scalar _ | .vector .. | .matrix .. => true
def membersNarrow : List (String × Ty) → Bool
  | [] => true
  | (_, t) :: rest => t.isNarrow && membersNarrow rest
end

theorem membersNarrow_iff : ∀ {members : List (String × Ty)},
    membersNarrow members ↔ ∀ m ∈ members, m.2.isNarrow
  | [] => by simp [membersNarrow]
  | m :: members => by
    rw [membersNarrow, Bool.and_eq_true, membersNarrow_iff, List.forall_mem_cons]

theorem isNarrow_struct {name : Option String} {members : List (String × Ty)} :
    (struct name members).isNarrow ↔
      members.length < Instruction.maxWordCount ∧ ∀ m ∈ members, m.2.isNarrow := by
  rw [isNarrow, Bool.and_eq_true, decide_eq_true_iff, membersNarrow_iff]

/-- Members of a type that can be declared have numbers that fit into a constant. -/
theorem isNarrow_memberType {ty : Ty} {index : Nat} (found : index < ty.members.length)
    (h : ty.isNarrow) : index < 2147483648 ∧ (ty.memberType index).isNarrow := by
  cases ty with
  | void | scalar | vector | matrix => simp [members] at found
  | struct name ms =>
    obtain ⟨hfew, hall⟩ := isNarrow_struct.mp h
    have hindex : index < ms.length := found
    refine ⟨Nat.lt_trans (Nat.lt_trans hindex hfew) (by decide), ?_⟩
    rw [memberType, show (struct name ms).members = ms from rfl, List.getElem?_eq_getElem hindex]
    exact hall _ (List.getElem_mem hindex)

end Ty

/-- The types of types and pointer types can be declared. -/
def Key.isNarrow : Key → Bool
  | .type ty | .pointer ty _ => ty.isNarrow
  | .value .. | .var _ => true

namespace Builder

/-- What the variables of a module hold before it runs, given by their numbers. -/
def contents (b : Builder) (start : Nat → Datum) (id : Id) : Option Datum :=
  (b.declared.find? (·.2 = id)).map fun p => start p.1

/-- Parameters, in the order of the function. -/
def parametersOf (parameters : List (Id × Id)) : List Instruction :=
  parameters.map fun p => ⟨.functionParameter, [p.2, p.1]⟩

/-- What stands between the definitions and the code: parameters and variables of the body. -/
def inner (b : Builder) : List Instruction := parametersOf b.parameters ++ b.declare

/-- What stands in front of the code leads to the state `φ`, and from it the code leads to the state
    `σ`. The code runs behind all definitions, also those that are built after it: these only add
    meanings of new ids, which the code does not know. All keys have their meaning, and ids that
    were not handed out have none. -/
structure Simulates (M : Machine) (start : Nat → Datum) (b : Builder) (φ σ : State) : Prop where
  defined : M.exec (b.define ++ b.inner) (.start (b.contents start)) = some φ
  declares : ∀ i ∈ b.declare, i.op = .var
  run : M.exec b.code φ = some σ
  extends_ : φ.Extends σ
  known : b.Known φ
  narrow : ∀ k id, b.find k = some id → k.isNarrow
  fresh : ∀ id, b.nextId.toNat ≤ id.toNat → φ.Free id ∧ σ.Free id
  distinct : ∀ k k' id, b.declared.lookup k = some id → b.declared.lookup k' = some id → k = k'
  held : ∀ p ∈ b.declared, p.2.toNat < b.nextId.toNat ∧ (φ.memory p.2).isSome

/-- From one state of building to a later one, meanings and contents are kept, and ids that were
    handed out get no meaning. -/
structure Enlarges (b : Builder) (φ σ : State) (b' : Builder) (φ' σ' : State) : Prop where
  extends_ : σ.Extends σ'
  holds : σ.Holds σ'
  nextId : b.nextId.toNat ≤ b'.nextId.toNat
  free : ∀ id, id.toNat < b.nextId.toNat → φ.Free id → σ.Free id → φ'.Free id ∧ σ'.Free id

namespace Enlarges

variable {b b' b'' : Builder} {φ φ' φ'' σ σ' σ'' : State}

theorem refl (b : Builder) (φ σ : State) : Enlarges b φ σ b φ σ :=
  ⟨.refl σ, fun _ _ h => h, Nat.le_refl _, fun _ _ h h' => ⟨h, h'⟩⟩

theorem trans (h : Enlarges b φ σ b' φ' σ') (h' : Enlarges b' φ' σ' b'' φ'' σ'') :
    Enlarges b φ σ b'' φ'' σ'' := by
  refine ⟨h.extends_.trans h'.extends_, fun id d hd => h'.holds id d (h.holds id d hd),
    Nat.le_trans h.nextId h'.nextId, fun id hid hfree hfree' => ?_⟩
  obtain ⟨hfree₁, hfree₁'⟩ := h.free id hid hfree hfree'
  exact h'.free id (Nat.lt_of_lt_of_le hid h.nextId) hfree₁ hfree₁'

/-- One more definition, under a new id, to which it gives the meaning that it has in `τ`. It is run
    in front of the code that is there already, so `hstep` asks for the step in any state of the
    definitions. -/
theorem define (ids : b.nextId ≠ 0xffffffff) (nextId : b'.nextId = b.nextId + 1)
    (agree : ∀ id, id ≠ b.nextId → φ.Agree id φ') : Enlarges b φ σ b' φ' (σ.or φ') := by
  refine ⟨State.extends_or σ φ', State.holds_or σ φ', ?_, fun id hid hfree hfree' => ?_⟩
  · rw [nextId, toNat_add_one ids]
    exact Nat.le_succ _
  · have hne : id ≠ b.nextId := by
      rintro rfl
      exact Nat.lt_irrefl _ hid
    exact ⟨hfree.agree (agree id hne), hfree'.or (hfree.agree (agree id hne))⟩

end Enlarges

namespace Simulates

variable {M : Machine} {start : Nat → Datum} {b b' : Builder} {φ φ' σ σ' : State} {k : Key}
  {id : Id}

theorem new (M : Machine) (start : Nat → Datum) (options : Options) :
    (Builder.new options).Simulates M start (.start fun _ => none) (.start fun _ => none) where
  defined := rfl
  declares := by simp [Builder.new]
  run := rfl
  extends_ := .refl _
  known k id h := by cases k <;> simp [find, Builder.new] at h
  narrow k id h := by cases k <;> simp [find, Builder.new] at h
  fresh _ _ := ⟨⟨rfl, rfl, rfl, rfl⟩, ⟨rfl, rfl, rfl, rfl⟩⟩
  distinct := by simp [Builder.new]
  held := by simp [Builder.new]

/-- Wherever the code has got, all keys have their meaning. -/
theorem means (h : b.Simulates M start φ σ) (hk : b.find k = some id) : σ.Means k id :=
  h.extends_.means (h.known k id hk)

theorem free (h : b.Simulates M start φ σ) : φ.Free b.nextId ∧ σ.Free b.nextId :=
  h.fresh b.nextId (Nat.le_refl _)

/-- Between the definitions and the code, no id but those of variables gets a meaning. -/
theorem inside (h : b.Simulates M start φ σ) {js : List Instruction} (hjs : js ⊆ b.inner)
    {ψ : State} (hrun : M.exec js ψ = some φ) : ψ.Declares φ := by
  refine Machine.declares_of_exec (fun i hi => ?_) hrun
  rcases List.mem_append.mp (hjs hi) with hi | hi
  · obtain ⟨p, -, rfl⟩ := List.mem_map.mp hi
    exact .inr rfl
  · exact .inl (h.declares i hi)

theorem grounded (h : b.Simulates M start φ σ) {ψ : State} (declares : ψ.Declares φ) :
    b.Grounded ψ := by
  intro k id hvar hk
  have hmeans := h.known k id hk
  cases k with
  | type ty => exact (congrFun declares.types id).symm.trans hmeans
  | pointer => trivial
  | value ty data => exact (congrFun declares.values id).symm.trans hmeans
  | var => simp [Key.isVar] at hvar

/-- More in front of the code. It only gives a meaning to ids that had none, so the code that is
    there already runs as before. -/
theorem defines (h : b.Simulates M start φ σ)
    (defined : M.exec (b'.define ++ b'.inner) (.start (b'.contents start)) = some φ')
    (declares : ∀ i ∈ b'.declare, i.op = .var)
    (code : b'.code = b.code) (agree : ∀ id, φ.Agree id φ' ∨ φ.Free id ∧ σ.Free id)
    (known : b'.Known φ') (narrow : ∀ k id, b'.find k = some id → k.isNarrow)
    (nextId : b.nextId.toNat ≤ b'.nextId.toNat)
    (fresh : ∀ id, b'.nextId.toNat ≤ id.toNat → φ.Agree id φ')
    (distinct : ∀ k k' id, b'.declared.lookup k = some id → b'.declared.lookup k' = some id →
      k = k')
    (held : ∀ p ∈ b'.declared, p.2.toNat < b'.nextId.toNat ∧ (φ'.memory p.2).isSome) :
    b'.Simulates M start φ' (σ.or φ') := by
  have hφ : φ.or φ' = φ' := State.or_eq_of_agree fun id => (agree id).imp_right (·.1)
  have hor {α : Type} {f f' g : Id → Option α} (hf : ∀ id, f' id = f id ∨ g id = none)
      (hg : ∀ id a, f id = some a → g id = some a) (id : Id) (a : α) (ha : f' id = some a) :
      (g id).or (f' id) = some a := by
    rcases hf id with heq | hnone
    · rw [hg id a (heq ▸ ha)]
      rfl
    · rw [hnone, Option.none_or, ha]
  refine ⟨defined, declares, ?_, ⟨?_, ?_, ?_⟩, known, narrow, fun id hid => ?_, distinct, held⟩
  -- the code runs where more has a meaning as it ran before
  · rw [code, ← hφ]
    exact (Machine.exec_or h.run).trans (by rw [hφ])
  · exact hor (fun id => (agree id).imp (·.types) (·.2.types)) h.extends_.types
  · exact hor (fun id => (agree id).imp (·.values) (·.2.values)) h.extends_.values
  · exact hor (fun id => (agree id).imp (·.pointers) (·.2.pointers)) h.extends_.pointers
  · obtain ⟨hfree, hfree'⟩ := h.fresh id (Nat.le_trans nextId hid)
    exact ⟨hfree.agree (fresh id hid), hfree'.or (hfree.agree (fresh id hid))⟩

/-- One more definition, under a new id, to which it gives the meaning that it has in `τ`. -/
theorem define (h : b.Simulates M start φ σ) {i : Instruction} {τ : State}
    (hstep : ∀ ψ : State, b.Grounded ψ → ψ.Free b.nextId → M.step i ψ = some (ψ.or τ))
    (ids : b.nextId ≠ 0xffffffff) (define : b'.define = b.define ++ [i])
    (inner : b'.declare = b.declare ∧ b'.parameters = b.parameters) (code : b'.code = b.code)
    (declared : b'.declared = b.declared) (nextId : b'.nextId = b.nextId + 1)
    (only : ∀ id, id ≠ b.nextId → τ.Free id) (known : b'.Known (φ.or τ))
    (narrow : ∀ k id, b'.find k = some id → k.isNarrow) :
    b'.Simulates M start (φ.or τ) (σ.or (φ.or τ)) := by
  have hnext : b'.nextId.toNat = b.nextId.toNat + 1 := by rw [nextId, toNat_add_one ids]
  refine h.defines ?_ (inner.1 ▸ h.declares) code (fun id => ?_) known narrow (by omega)
    (fun id hid => (only id ?_).agree_or) (declared ▸ h.distinct) (fun p hp => ?_)
  · have hrun := Machine.exec_insert (i := i) (τ := τ) State.blank h.defined fun ψ _
        hinner => by
      have hdeclares := h.inside (fun _ h => h) hinner
      rw [State.or_blank]
      exact hstep ψ (h.grounded hdeclares) (hdeclares.free _ h.free.1)
    have hcontents : b'.contents start = b.contents start := by
      unfold contents
      rw [declared]
    rwa [State.or_blank, ← hcontents, ← List.singleton_append, ← List.append_assoc, ← define,
      show b.inner = b'.inner by rw [Builder.inner, Builder.inner, inner.1, inner.2]] at hrun
  · by_cases hid : id = b.nextId
    · exact .inr (hid ▸ h.free)
    · exact .inl (only id hid).agree_or
  · rintro rfl
    omega
  · obtain ⟨hbelow, hheld⟩ := h.held p (declared ▸ hp)
    have hne : p.2 ≠ b.nextId := by
      rintro heq
      exact Nat.lt_irrefl _ (heq ▸ hbelow)
    have hsame : (φ.or τ).memory p.2 = φ.memory p.2 := (only p.2 hne).agree_or.memory
    exact ⟨by omega, hsame ▸ hheld⟩

/-- A key that is new in the tables is the one that has got its meaning. -/
theorem known_of_new (h : b.Simulates M start φ σ) (hextends : φ.Extends φ') {key : Key}
    (find : ∀ k, b'.find k = if k = key then some b.nextId else b.find k)
    (means : φ'.Means key b.nextId) : b'.Known φ' := by
  intro k id hk
  rw [find] at hk
  split at hk
  · rename_i hkey
    rw [hkey, ← Option.some.inj hk]
    exact means
  · exact hextends.means (h.known k id hk)

/-- So is a key that is new. -/
theorem narrow_of_new (h : b.Simulates M start φ σ) {key : Key}
    (find : ∀ k, b'.find k = if k = key then some id else b.find k) (narrow : key.isNarrow) (k : Key)
    (u : Id) (hk : b'.find k = some u) : k.isNarrow := by
  rw [find] at hk
  split at hk
  · rename_i hkey
    exact hkey ▸ narrow
  · exact h.narrow k u hk

/-- A type that is made of narrow ones. -/
theorem isNarrow_of_spells (h : b.Simulates M start φ σ) {ty : Ty} {op : Opcode}
    {operands : List UInt32} (spelled : b.Spells ty op operands)
    (short : operands.length + 1 < Instruction.maxWordCount) : ty.isNarrow := by
  cases spelled with
  | @struct name members ids made =>
    refine Ty.isNarrow_struct.mpr ⟨by rw [made.length_eq]; omega, fun m hm => ?_⟩
    obtain ⟨i, hi, rfl⟩ := List.getElem_of_mem hm
    exact h.narrow (.type _) _ (made.get hi (made.length_eq ▸ hi))
  | void | bool | float | double | int | uint | vector | matrix => rfl

theorem definition (h : b.Simulates M start φ σ) (step : DefinitionStep b b') :
    ∃ φ' σ', b'.Simulates M start φ' σ' ∧ Enlarges b φ σ b' φ' σ' := by
  -- a new id gets what it has in `τ`, and all else is as it was
  have hnew {i : Instruction} {τ : State} {key : Key}
      (hstep : ∀ ψ : State, b.Grounded ψ → ψ.Free b.nextId → M.step i ψ = some (ψ.or τ))
      (ids : b.nextId ≠ 0xffffffff) (define : b'.define = b.define ++ [i])
      (inner : b'.declare = b.declare ∧ b'.parameters = b.parameters) (code : b'.code = b.code)
      (declared : b'.declared = b.declared) (nextId : b'.nextId = b.nextId + 1)
      (only : ∀ id, id ≠ b.nextId → τ.Free id)
      (find : ∀ k, b'.find k = if k = key then some b.nextId else b.find k)
      (means : (φ.or τ).Means key b.nextId) (narrow : key.isNarrow) :
      ∃ φ' σ', b'.Simulates M start φ' σ' ∧ Enlarges b φ σ b' φ' σ' :=
    ⟨φ.or τ, _, h.define hstep ids define inner code declared nextId only
      (h.known_of_new (State.extends_or φ τ) find means) (h.narrow_of_new find narrow),
      .define ids nextId fun id hid => (only id hid).agree_or⟩
  cases step with
  | type step =>
    cases step with
    | name =>
      refine ⟨φ, σ, ⟨h.defined, h.declares, h.run, h.extends_, fun k id hk => h.known k id ?_,
        fun k id hk => h.narrow k id ?_, h.fresh, h.distinct, h.held⟩, .refl σ, fun _ _ h => h, Nat.le_refl _,
        fun _ _ h h' => ⟨h, h'⟩⟩
      all_goals cases k <;> exact hk
    | @type ty op operands new spelled short ids =>
      refine hnew (τ := State.blank.withType b.nextId ty.bare) (fun ψ hψ hfree => ?_) ids rfl
        ⟨rfl, rfl⟩ rfl rfl rfl (fun id hid => State.free_withType hid _) find_withNewType ?_
        (h.isNarrow_of_spells spelled short)
      · rw [State.or_withType hfree.types]
        exact spelled.step hψ
      · rw [State.or_withType h.free.1.types]
        exact Function.update_self _ _ _
  | @pointer ty c pointee new known ids =>
    refine hnew (τ := State.blank) (fun ψ _ _ => ?_) ids rfl ⟨rfl, rfl⟩ rfl rfl rfl
      (fun id _ => State.free_blank id) find_withNewPointer trivial (h.narrow (.type ty) _ known)
    rw [State.or_blank]
    rfl
  | @value ty data op type operands new known filled short ids =>
    refine hnew (τ := State.blank.withValue b.nextId (ty.datum data)) (fun ψ hψ hfree => ?_) ids rfl
      ⟨rfl, rfl⟩ rfl rfl rfl (fun id hid => State.free_withValue hid _) find_withNewValue ?_ rfl
    · rw [State.or_withValue hfree.values]
      exact filled.step known hψ
    · rw [State.or_withValue h.free.1.values]
      exact Function.update_self _ _ _

theorem definitions (h : b.Simulates M start φ σ) (steps : ReflTransGen DefinitionStep b b') :
    ∃ φ' σ', b'.Simulates M start φ' σ' ∧ Enlarges b φ σ b' φ' σ' := by
  induction steps with
  | refl => exact ⟨φ, σ, h, .refl b φ σ⟩
  | tail _ hstep ih =>
    obtain ⟨φ₁, σ₁, h₁, hlarger₁⟩ := ih
    obtain ⟨φ₂, σ₂, h₂, hlarger₂⟩ := h₁.definition hstep
    exact ⟨φ₂, σ₂, h₂, hlarger₁.trans hlarger₂⟩

/-- An id is handed out. -/
theorem reserve (h : b.Simulates M start φ σ) (ids : b.nextId ≠ 0xffffffff) :
    b.withReserved.Simulates M start φ σ := by
  have hnext : b.withReserved.nextId.toNat = b.nextId.toNat + 1 := toNat_add_one ids
  exact ⟨h.defined, h.declares, h.run, h.extends_,
    fun k id hk => h.known k id (by cases k <;> exact hk),
    fun k id hk => h.narrow k id (by cases k <;> exact hk),
    fun id hid => h.fresh id (by omega), h.distinct,
    fun p hp => ⟨Nat.lt_trans (h.held p hp).1 (by omega), (h.held p hp).2⟩⟩

/-- What variables hold before the module runs is kept, as long as they are not given a value. -/
theorem held_of_contents (h : b.Simulates M start φ σ) {d : Datum}
    (hd : b.contents start id = some d) : (φ.memory id).isSome := by
  obtain ⟨p, hp, -⟩ := Option.map_eq_some_iff.mp hd
  have hid : p.2 = id := by simpa using List.find?_some hp
  exact hid ▸ (h.held p (List.mem_of_find?_eq_some hp)).2

theorem contents_eq_none (h : b.Simulates M start φ σ) (free : φ.Free id) :
    b.contents start id = none := by
  cases hc : b.contents start id with
  | none => rfl
  | some e =>
    have hheld := h.held_of_contents hc
    rw [free.memory] at hheld
    simp at hheld

theorem contents_cons {n : Nat} (declared : b'.declared = (n, id) :: b.declared) :
    b'.contents start = Function.update (b.contents start) id (some (start n)) := by
  funext u
  rw [contents, declared, List.find?_cons]
  by_cases hu : u = id
  · subst hu
    simp
  · rw [Function.update_of_ne hu, decide_eq_false (Ne.symm hu)]
    rfl

/-- An id without a meaning is not that of a variable. -/
theorem lookup_ne (h : b.Simulates M start φ σ) (free : φ.Free id) (k : Nat) :
    b.declared.lookup k ≠ some id := by
  intro hk
  have hpointer : φ.pointers id = some ⟨id, []⟩ := h.known (.var k) id hk
  rw [free.pointers] at hpointer
  simp at hpointer

theorem distinct_cons (h : b.Simulates M start φ σ) (free : φ.Free id) (n k k' : Nat) (u : Id)
    (hk : ((n, id) :: b.declared).lookup k = some u)
    (hk' : ((n, id) :: b.declared).lookup k' = some u) : k = k' := by
  rw [List.lookup_cons_eq] at hk hk'
  split at hk <;> split at hk'
  · simp [*]
  · exact (h.lookup_ne free k' (hk'.trans hk.symm)).elim
  · exact (h.lookup_ne free k (hk.trans hk'.symm)).elim
  · exact h.distinct k k' u hk hk'

/-- A variable is declared somewhere in front of the code, under an id that was handed out and has no
    meaning yet. -/
theorem declare (h : b.Simulates M start φ σ) {x : Variable} {i : Instruction}
    {is js : List Instruction} (split : b.define ++ b.inner = is ++ js) (behind : js ⊆ b.inner)
    (front : b'.define ++ b'.inner = is ++ i :: js) (declares : ∀ i ∈ b'.declare, i.op = .var)
    (below : id.toNat < b'.nextId.toNat) (nextId : b.nextId.toNat ≤ b'.nextId.toNat)
    (free : φ.Free id) (free' : σ.Free id) (code : b'.code = b.code)
    (declared : b'.declared = (x.id, id) :: b.declared)
    (find : ∀ k, b'.find k = if k = .var x.id then some id else b.find k)
    (hstep : ∀ ψ : State, b.Grounded ψ → M.step i (ψ.withContents id (start x.id)) =
      some (ψ.withVariable id (x.startDatum (start x.id)))) :
    ∃ φ' σ', b'.Simulates M start φ' σ' ∧ σ.Extends σ' ∧ σ.Holds σ' ∧
      σ'.memory id = some (x.startDatum (start x.id)) := by
  let φ' := φ.withVariable id (x.startDatum (start x.id))
  have hagree (u : Id) (hu : u ≠ id) : φ.Agree u φ' := State.agree_withVariable hu _
  have hcontent : φ'.memory id = some (x.startDatum (start x.id)) := Function.update_self _ _ _
  have hdefined : M.exec (b'.define ++ b'.inner) (.start (b'.contents start)) = some φ' := by
    -- what the variable holds from the start on does not matter before its declaration
    have hrun := Machine.exec_insert (i := i)
      (τ := State.blank.withVariable id (x.startDatum (start x.id)))
      (State.blank.withContents id (start x.id)) (split ▸ h.defined) fun ψ _ hjs => by
        have hdeclares := h.inside behind hjs
        have hfree := hdeclares.free id free
        rw [State.or_withContents hfree.memory, State.or_withVariable hfree.pointers hfree.memory]
        exact hstep ψ (h.grounded hdeclares)
    rw [State.or_withContents (h.contents_eq_none free),
      State.or_withVariable free.pointers free.memory, ← front] at hrun
    rw [contents_cons declared]
    exact hrun
  have hknown : b'.Known φ' := by
    intro k u hk
    rw [find] at hk
    split at hk
    · rename_i hkey
      rw [hkey, ← Option.some.inj hk]
      exact Function.update_self _ _ _
    · exact (State.Extends.of_agree free hagree).means (h.known k u hk)
  have hheld : ∀ p ∈ b'.declared, p.2.toNat < b'.nextId.toNat ∧ (φ'.memory p.2).isSome := by
    intro p hp
    rw [declared] at hp
    rcases List.mem_cons.mp hp with rfl | hp
    · exact ⟨below, by rw [hcontent]; rfl⟩
    · obtain ⟨hbelow, hheld⟩ := h.held p hp
      refine ⟨Nat.lt_of_lt_of_le hbelow nextId, ?_⟩
      by_cases hu : p.2 = id
      · rw [hu, hcontent]
        rfl
      · rwa [(hagree p.2 hu).memory]
  refine ⟨φ', σ.or φ', h.defines hdefined declares code (fun u => ?_) hknown
    (h.narrow_of_new find rfl) nextId
    (fun u hu => hagree u ?_) (declared ▸ h.distinct_cons free x.id) hheld, State.extends_or σ φ',
    State.holds_or σ φ', ?_⟩
  · by_cases hu : u = id
    · exact .inr (hu ▸ ⟨free, free'⟩)
    · exact .inl (hagree u hu)
  · rintro rfl
    exact Nat.lt_irrefl _ (Nat.lt_of_lt_of_le below hu)
  · exact (congrArg (fun o => Option.or o (φ'.memory id)) free'.memory).trans hcontent

/-- One more instruction of the code. -/
theorem code (h : b.Simulates M start φ σ) {i : Instruction} (hstep : M.step i σ = some σ')
    (hextends : σ.Extends σ')
    (fresh : ∀ id, b.nextId.toNat ≤ id.toNat → σ.Agree id σ') :
    (b.withCode i).Simulates M start φ σ' := by
  refine ⟨h.defined, h.declares, ?_, h.extends_.trans hextends,
    fun k id hk => h.known k id (by cases k <;> exact hk),
    fun k id hk => h.narrow k id (by cases k <;> exact hk), fun id hid => ?_, h.distinct, h.held⟩
  · rw [show (b.withCode i).code = b.code ++ [i] from rfl, Machine.exec_append, h.run]
    simpa [Machine.exec_singleton] using hstep
  · obtain ⟨hfree, hfree'⟩ := h.fresh id hid
    exact ⟨hfree, hfree'.agree (fresh id hid)⟩

/-- An instruction that gives a new id a meaning. It stands behind the code, so it is run once, in
    the state that the code leaves. -/
theorem result (h : b.Simulates M start φ σ) (ids : b.nextId ≠ 0xffffffff) {i : Instruction}
    (hstep : M.step i σ = some σ') (agree : ∀ id, id ≠ b.nextId → σ.Agree id σ')
    (memory : σ'.memory = σ.memory) :
    (b.withReserved.withCode i).Simulates M start φ σ' ∧ σ.Extends σ' ∧ σ.Holds σ' := by
  have hextends : σ.Extends σ' := .of_agree h.free.2 agree
  refine ⟨(h.reserve ids).code hstep hextends fun id hid => agree id ?_, hextends,
    fun id d hd => by rw [memory, hd]⟩
  rintro rfl
  rw [show b.withReserved.nextId = b.nextId + 1 from rfl, toNat_add_one ids] at hid
  omega

/-- A variable with a value of its own is declared among the definitions or in the body. -/
theorem declareVariable (h : b.Simulates M start φ σ) {x : Variable} (pointer : Id)
    {initial : List Id} (names : List Instruction) (below : id.toNat < b.nextId.toNat)
    (free : φ.Free id) (free' : σ.Free id) (starts : b.Starts x initial) :
    ∃ φ' σ', (b.withVariable x id pointer initial names).Simulates M start φ' σ' ∧
      σ.Extends σ' ∧ σ.Holds σ' ∧ σ'.memory id = some (x.startDatum (start x.id)) := by
  have hstep (ψ : State) (hψ : b.Grounded ψ) :
      M.step (declaration x id pointer initial) (ψ.withContents id (start x.id)) =
        some (ψ.withVariable id (x.startDatum (start x.id))) :=
    declaration_step pointer starts hψ _
  by_cases hbody : x.qualifier.storage = .body
  · refine h.declare (List.append_nil (b.define ++ b.inner)).symm (List.nil_subset _) ?_
      (fun i hi => ?_) below (Nat.le_refl _) free free' rfl rfl find_withVariable hstep
    · simp [withVariable, hbody, inner]
    · have hmem : i ∈ b.declare ++ [declaration x id pointer initial] := by
        simpa [withVariable, hbody] using hi
      rcases List.mem_append.mp hmem with hi | hi
      · exact h.declares i hi
      · rw [List.mem_singleton.mp hi]
        rfl
  · refine h.declare rfl (fun _ h => h) ?_ (fun i hi => ?_) below (Nat.le_refl _) free free' rfl rfl
      find_withVariable hstep
    · simp [withVariable, hbody, inner]
    · exact h.declares i (by simpa [withVariable, hbody] using hi)

/-- A parameter is declared behind the parameters there are. -/
theorem declareParameter (h : b.Simulates M start φ σ) {x : Variable} (pointer : Id)
    (names : List Instruction) (ids : b.nextId ≠ 0xffffffff) (given : x.start? = none) :
    ∃ φ' σ', (b.withNewParameter x pointer names).Simulates M start φ' σ' ∧
      σ.Extends σ' ∧ σ.Holds σ' ∧ σ'.memory b.nextId = some (x.startDatum (start x.id)) := by
  have hnext : (b.nextId + 1).toNat = b.nextId.toNat + 1 := toNat_add_one ids
  refine h.declare (i := ⟨.functionParameter, [pointer, b.nextId]⟩)
    (List.append_assoc b.define (parametersOf b.parameters) b.declare).symm
    (List.subset_append_right _ _) ?_ h.declares ?_ ?_ h.free.1 h.free.2 rfl rfl
    find_withNewParameter fun ψ _ => ?_
  · simp [withNewParameter, inner, parametersOf]
  · change b.nextId.toNat < (b.nextId + 1).toNat
    omega
  · change b.nextId.toNat ≤ (b.nextId + 1).toNat
    omega
  · rw [Variable.startDatum, given]
    rfl

/-- A request for a variable. -/
theorem variableId (h : b.Simulates M start φ σ) {x : Variable}
    (hr : Build.variableId x b = .ok (id, b')) :
    ∃ φ' σ', b'.Simulates M start φ' σ' ∧ σ.Extends σ' ∧ σ.Holds σ' ∧
      b'.declared.lookup x.id = some id ∧ (b'.declared = b.declared ∨
        b.declared.lookup x.id = none ∧ b'.declared = (x.id, id) :: b.declared ∧
          x.ty.isNarrow ∧ σ'.memory id = some (x.startDatum (start x.id))) := by
  cases hknown : b.declared.lookup x.id with
  | some known =>
    rw [Build.variableId_of_known hknown] at hr
    obtain ⟨rfl, rfl⟩ := Prod.mk.inj (Except.ok.inj hr)
    exact ⟨φ, σ, h, .refl σ, fun _ _ h => h, hknown, .inl rfl⟩
  | none =>
    obtain ⟨pointer, b₁, hsteps, hpointer, hmax, rfl, hdeclared⟩ :=
      Build.variableId_eq_ok hknown hr
    obtain ⟨φ₁, σ₁, h₁, hlarger₁⟩ := h.definitions hsteps
    have hnarrow : x.ty.isNarrow := h₁.narrow (.pointer _ _) _ hpointer
    have hsame₁ : b₁.declared = b.declared := declared_of_steps hsteps
    obtain ⟨hparameter, names, -, rfl⟩ | ⟨-, initial, b₂, names, hinside, hstarts, -, rfl⟩ :=
      hdeclared
    · have hgiven : x.start? = none := by
        rw [Variable.start?, of_decide_eq_true hparameter]
        rfl
      obtain ⟨φ', σ', h', hextends, hholds, hmemory⟩ :=
        h₁.declareParameter pointer names hmax hgiven
      refine ⟨φ', σ', h', hlarger₁.extends_.trans hextends,
        fun id d hd => hholds id d (hlarger₁.holds id d hd), List.lookup_cons_self,
        .inr ⟨rfl, ?_, hnarrow, hmemory⟩⟩
      rw [← hsame₁]
      rfl
    · obtain ⟨φ₂, σ₂, h₂, hlarger₂⟩ := (h₁.reserve hmax).definitions hinside
      have hbelow : b₁.nextId.toNat < b₁.withReserved.nextId.toNat := by
        rw [show b₁.withReserved.nextId = b₁.nextId + 1 from rfl, toNat_add_one hmax]
        exact Nat.lt_succ_self _
      obtain ⟨hfree, hfree'⟩ := hlarger₂.free b₁.nextId hbelow h₁.free.1 h₁.free.2
      obtain ⟨φ', σ', h', hextends, hholds, hmemory⟩ := h₂.declareVariable (x := x) pointer names
        (Nat.lt_of_lt_of_le hbelow hlarger₂.nextId) hfree hfree' hstarts
      have hsame : b₂.declared = b.declared := (declared_of_steps hinside).trans hsame₁
      refine ⟨φ', σ', h', (hlarger₁.extends_.trans hlarger₂.extends_).trans hextends,
        fun id d hd => hholds id d (hlarger₂.holds id d (hlarger₁.holds id d hd)),
        List.lookup_cons_self, .inr ⟨rfl, ?_, hnarrow, hmemory⟩⟩
      rw [← hsame]
      rfl

end Simulates

end Builder

end ShaderExpr
