import ShaderExpr.Proofs.Interning.Steps
import ShaderExpr.Proofs.Module.Ids

namespace ShaderExpr

open Relation Instruction Typing

namespace Builder

/-- What defines a key under an id. -/
inductive Meaning (xs : List Variable) (b : Builder) : Key → Id → Instruction → Prop
  | type {ty : Ty} {id : Id} {op : Opcode} {operands : List UInt32}
    (spelled : b.Spells ty op operands) : Meaning xs b (.type ty) id ⟨op, id :: operands⟩
  | pointer {ty : Ty} {c : StorageClass} {id pointee : Id}
    (known : b.types.lookup ty = some pointee) :
    Meaning xs b (.pointer ty c) id ⟨.typePointer, [id, c.number, pointee]⟩
  | value {ty : Ty} {data : List UInt8} {id type : Id} {op : Opcode} {operands : List UInt32}
    (known : b.types.lookup ty = some type) (filled : b.Fills ty data op operands) :
    Meaning xs b (.value ty data) id ⟨op, type :: id :: operands⟩
  | var {x : Variable} {id pointer : Id} {initial : List Id} (known : x ∈ xs)
    (inside : x.isParameter = false)
    (typed : b.pointerTypes.lookup (x.ty, x.qualifier.storage.storageClass) = some pointer)
    (starts : b.Starts x initial) :
    Meaning xs b (.var x.id) id (declaration x id pointer initial)

/-- A key is a parameter of the body function under an id. -/
def IsParameter (xs : List Variable) (b : Builder) (k : Key) (id : Id) : Prop :=
  ∃ x ∈ xs, x.isParameter ∧ k = .var x.id ∧ ∃ pointer, (id, pointer) ∈ b.parameters ∧
    b.pointerTypes.lookup (x.ty, x.qualifier.storage.storageClass) = some pointer

/-- A key has its definition, which is outside of the body function unless it is a variable's. -/
def HasMeaning (xs : List Variable) (b : Builder) (k : Key) (id : Id) : Prop :=
  (∃ i ∈ b.define, b.Meaning xs k id i) ∨
    k.isVar ∧ ((∃ i ∈ b.declare, b.Meaning xs k id i) ∨ b.IsParameter xs k id)

/-- The ids of definitions, declarations and parameters. -/
def given (b : Builder) : List Id :=
  results b.define ++ results b.declare ++ b.parameters.map (·.1)

/-- Tables and definitions belong together: each key that has an id has one definition under it,
    nothing else is defined, and different keys have different ids. Ids of `taken` were handed out,
    but mean nothing yet. -/
structure Interned (xs : List Variable) (taken : List Id) (b : Builder) : Prop where
  once : (taken ++ b.given).Nodup
  below : ∀ id ∈ taken ++ b.given, id.toNat < b.nextId.toNat
  unique : ∀ k k' id, b.find k = some id → b.find k' = some id → k = k'
  found : ∀ k id, b.find k = some id → b.HasMeaning xs k id
  defined : ∀ i ∈ b.define ++ b.declare, ∃ k id, b.find k = some id ∧ b.Meaning xs k id i
  ordered : Ordered [] b.define

variable {xs : List Variable} {taken : List Id} {b b' : Builder} {k : Key} {id : Id}
  {i : Instruction}

namespace Meaning

theorem result (h : b.Meaning xs k id i) : i.result? = some id := by
  cases h with
  | type spelled => cases spelled <;> rfl
  | pointer | var => rfl
  | value _ filled => cases filled <;> rfl

theorem keeps (h : b.Meaning xs k id i) (hkeeps : b.Keeps b') : b'.Meaning xs k id i := by
  cases h with
  | type spelled => exact .type (spelled.keeps hkeeps)
  | pointer known => exact .pointer (hkeeps.types known)
  | value known filled => exact .value (hkeeps.types known) (filled.keeps hkeeps)
  | var known inside typed starts =>
    exact .var known inside (hkeeps.pointers typed) (starts.keeps hkeeps)

/-- Definitions refer to types and constants of the tables. -/
theorem uses (h : b.Meaning xs k id i) {u : Id} (hu : u ∈ i.uses) :
    ∃ k', k'.isVar = false ∧ b.find k' = some u := by
  have hmade {α : Type} {l : List α} {ids : List Id} (key : α → Key)
      (made : List.Forall₂ (fun a id => b.find (key a) = some id) l ids)
      (inside : ∀ a, (key a).isVar = false) (hu : u ∈ ids) :
      ∃ k', k'.isVar = false ∧ b.find k' = some u := by
    obtain ⟨a, -, ha⟩ := List.exists_of_forall₂ made u hu
    exact ⟨key a, inside a, ha⟩
  cases h with
  | type spelled =>
    cases spelled with
    | void | bool | float | double | int | uint => simp [Instruction.uses] at hu
    | vector component =>
      obtain rfl : u = _ := by simpa [Instruction.uses] using hu
      exact ⟨.type _, rfl, component⟩
    | matrix column =>
      obtain rfl : u = _ := by simpa [Instruction.uses] using hu
      exact ⟨.type _, rfl, column⟩
    | struct made => exact hmade (fun m : String × Ty => .type m.2) made (fun _ => rfl) hu
  | pointer known =>
    obtain rfl : u = _ := by simpa [Instruction.uses] using hu
    exact ⟨.type _, rfl, known⟩
  | value known filled =>
    cases filled with
    | true | false | scalar =>
      obtain rfl : u = _ := by simpa [Instruction.uses] using hu
      exact ⟨.type _, rfl, known⟩
    | composite whole made =>
      rcases List.mem_cons.mp (show u ∈ _ :: _ from hu) with rfl | hu
      · exact ⟨.type _, rfl, known⟩
      · exact hmade (fun part : Ty × List UInt8 => .value part.1 part.2) made (fun _ => rfl) hu
  | var known inside typed starts =>
    rcases List.mem_cons.mp (show u ∈ _ :: _ from hu) with rfl | hu
    · exact ⟨.pointer _ _, rfl, typed⟩
    · obtain ⟨-, rfl⟩ | ⟨v, value, -, hvalue, rfl⟩ := starts
      · exact absurd hu List.not_mem_nil
      · obtain rfl := List.mem_singleton.mp hu
        exact ⟨.value _ _, rfl, hvalue⟩

end Meaning

theorem mem_given_of_define (hi : i ∈ b.define) (hr : i.result? = some id) : id ∈ b.given :=
  List.mem_append_left _ (List.mem_append_left _ (mem_results.mpr ⟨i, hi, hr⟩))

theorem mem_given_of_declare (hi : i ∈ b.declare) (hr : i.result? = some id) : id ∈ b.given :=
  List.mem_append_left _ (List.mem_append_right _ (mem_results.mpr ⟨i, hi, hr⟩))

theorem HasMeaning.mem_given (h : b.HasMeaning xs k id) : id ∈ b.given := by
  obtain ⟨i, hi, hmeaning⟩ | ⟨-, ⟨i, hi, hmeaning⟩ | ⟨x, -, -, -, pointer, hp, -⟩⟩ := h
  · exact mem_given_of_define hi hmeaning.result
  · exact mem_given_of_declare hi hmeaning.result
  · exact List.mem_append_right _ (List.mem_map.mpr ⟨_, hp, rfl⟩)

theorem HasMeaning.keeps (h : b.HasMeaning xs k id) (hkeeps : b.Keeps b')
    (define : b.define ⊆ b'.define) (declare : b.declare ⊆ b'.declare)
    (parameters : b.parameters ⊆ b'.parameters) : b'.HasMeaning xs k id := by
  obtain ⟨i, hi, hmeaning⟩ | ⟨hvar, ⟨i, hi, hmeaning⟩ | ⟨x, hx, hout, hk, pointer, hp, htyped⟩⟩ := h
  · exact .inl ⟨i, define hi, hmeaning.keeps hkeeps⟩
  · exact .inr ⟨hvar, .inl ⟨i, declare hi, hmeaning.keeps hkeeps⟩⟩
  · exact .inr ⟨hvar, .inr ⟨x, hx, hout, hk, pointer, parameters hp, hkeeps.pointers htyped⟩⟩

namespace Interned

theorem new (xs : List Variable) (options : Options) : (Builder.new options).Interned xs [] where
  once := .nil
  below := by simp [given, Builder.new]
  unique k k' id h := by cases k <;> simp [find, Builder.new] at h
  found k id h := by cases k <;> simp [find, Builder.new] at h
  defined := by simp [Builder.new]
  ordered := trivial

/-- Types and constants of the tables are defined. -/
theorem mem_define (h : b.Interned xs taken) (hk : k.isVar = false) (hid : b.find k = some id) :
    id ∈ results b.define := by
  obtain ⟨i, hi, hmeaning⟩ | ⟨hvar, -⟩ := h.found k id hid
  · exact mem_results.mpr ⟨i, hi, hmeaning.result⟩
  · simp [hk] at hvar

/-- The next id is handed out. -/
theorem reserve (h : b.Interned xs taken) (ids : b.nextId ≠ 0xffffffff) :
    b.withReserved.Interned xs (b.nextId :: taken) := by
  have hnext : (b.nextId + 1).toNat = b.nextId.toNat + 1 := toNat_add_one ids
  have hkeeps : b.Keeps b.withReserved := fun _ _ h => h
  refine ⟨?_, fun id hid => ?_, h.unique, fun k id hid => ?_, fun i hi => ?_, h.ordered⟩
  · refine List.nodup_cons.mpr ⟨fun hmem => ?_, h.once⟩
    exact absurd (h.below _ hmem) (Nat.lt_irrefl _)
  · change id.toNat < (b.nextId + 1).toNat
    rcases List.mem_cons.mp hid with rfl | hid
    · omega
    · have := h.below id hid
      omega
  · exact (h.found k id hid).keeps hkeeps (fun _ h => h) (fun _ h => h) fun _ h => h
  · obtain ⟨k, id, hid, hmeaning⟩ := h.defined i hi
    exact ⟨k, id, hid, hmeaning.keeps hkeeps⟩

/-- An id that was handed out gets a meaning: a new key enters its table, with what defines it. All
    that is defined besides it was defined before, by `defined`. -/
theorem settle (h : b.Interned xs (id :: taken)) {key : Key} (new : b.find key = none)
    (table : ∀ k, b'.find k = if k = key then some id else b.find k) (nextId : b'.nextId = b.nextId)
    (given : b'.given.Perm (id :: b.given)) (define : b.define ⊆ b'.define)
    (declare : b.declare ⊆ b'.declare) (parameters : b.parameters ⊆ b'.parameters)
    (found : b'.HasMeaning xs key id)
    (defined : ∀ i ∈ b'.define ++ b'.declare, i ∈ b.define ++ b.declare ∨ b'.Meaning xs key id i)
    (ordered : Ordered [] b'.define) : b'.Interned xs taken := by
  have hkeeps : b.Keeps b' := .of_new key new table
  have hperm : (taken ++ b'.given).Perm (id :: taken ++ b.given) :=
    (given.append_left taken).trans List.perm_middle
  have hother {k : Key} (hk : b.find k = some id) : False := by
    have hmem := (h.found k id hk).mem_given
    exact (List.nodup_cons.mp h.once).1 (List.mem_append_right _ hmem)
  refine ⟨hperm.nodup_iff.mpr h.once, fun r hr => ?_, fun k k' r hk hk' => ?_, fun k r hk => ?_,
    fun i hi => ?_, ordered⟩
  · rw [nextId]
    exact h.below r (hperm.mem_iff.mp hr)
  · rw [table] at hk hk'
    split at hk <;> split at hk'
    · simp [*]
    · obtain rfl := Option.some.inj hk
      exact (hother hk').elim
    · obtain rfl := Option.some.inj hk'
      exact (hother hk).elim
    · exact h.unique k k' r hk hk'
  · rw [table] at hk
    split at hk
    · rename_i hkey
      obtain rfl := Option.some.inj hk
      rw [hkey]
      exact found
    · exact (h.found k r hk).keeps hkeeps define declare parameters
  · rcases defined i hi with hi | hmeaning
    · obtain ⟨k, r, hk, hmeaning⟩ := h.defined i hi
      exact ⟨k, r, hkeeps k r hk, hmeaning.keeps hkeeps⟩
    · exact ⟨key, id, by rw [table, if_pos rfl], hmeaning⟩

/-- The id of a new definition gets its meaning. -/
theorem settleDefinition (h : b.Interned xs (id :: taken)) (new : b.find k = none)
    (table : ∀ k', b'.find k' = if k' = k then some id else b.find k')
    (define : b'.define = b.define ++ [i]) (declare : b'.declare = b.declare)
    (parameters : b'.parameters = b.parameters) (nextId : b'.nextId = b.nextId)
    (meaning : b.Meaning xs k id i) : b'.Interned xs taken := by
  have hmeaning := meaning.keeps (.of_new k new table)
  refine h.settle new table nextId ?_ (define ▸ List.subset_append_left _ _)
    (declare ▸ fun _ h => h) (parameters ▸ fun _ h => h) (.inl ⟨i, by simp [define], hmeaning⟩)
    (fun j hj => ?_) ?_
  · have hgiven : b'.given =
        results b.define ++ id :: (results b.declare ++ b.parameters.map (·.1)) := by
      simp [given, define, declare, parameters, results_singleton, meaning.result]
    rw [hgiven, given, List.append_assoc]
    exact List.perm_middle
  · rw [define, declare, List.append_assoc, List.mem_append, List.mem_append] at hj
    obtain hj | hj | hj := hj
    · exact .inl (List.mem_append_left _ hj)
    · rw [List.mem_singleton.mp hj]
      exact .inr hmeaning
    · exact .inl (List.mem_append_right _ hj)
  · rw [define]
    refine ordered_append.mpr ⟨h.ordered, ordered_singleton.mpr fun _ u hu => ?_⟩
    obtain ⟨k', hk', hu⟩ := meaning.uses hu
    exact h.mem_define hk' hu

/-- The id of a new variable of the body function gets its meaning. -/
theorem settleDeclaration (h : b.Interned xs (id :: taken)) (new : b.find k = none)
    (table : ∀ k', b'.find k' = if k' = k then some id else b.find k') (var : k.isVar)
    (define : b'.define = b.define) (declare : b'.declare = b.declare ++ [i])
    (parameters : b'.parameters = b.parameters) (nextId : b'.nextId = b.nextId)
    (meaning : b.Meaning xs k id i) : b'.Interned xs taken := by
  have hmeaning := meaning.keeps (.of_new k new table)
  refine h.settle new table nextId ?_ (define ▸ fun _ h => h)
    (declare ▸ List.subset_append_left _ _) (parameters ▸ fun _ h => h)
    (.inr ⟨var, .inl ⟨i, by simp [declare], hmeaning⟩⟩) (fun j hj => ?_) (define ▸ h.ordered)
  · have hgiven : b'.given =
        (results b.define ++ results b.declare) ++ id :: b.parameters.map (·.1) := by
      simp [given, define, declare, parameters, results_singleton, meaning.result]
    rw [hgiven, given]
    exact List.perm_middle
  · rw [define, declare, ← List.append_assoc] at hj
    obtain hj | hj := List.mem_append.mp hj
    · exact .inl hj
    · rw [List.mem_singleton.mp hj]
      exact .inr hmeaning

/-- The id of a new parameter gets its meaning. -/
theorem settleParameter (h : b.Interned xs (id :: taken)) (new : b.find k = none)
    (table : ∀ k', b'.find k' = if k' = k then some id else b.find k') {p : Id} (var : k.isVar)
    (define : b'.define = b.define) (declare : b'.declare = b.declare)
    (parameters : b'.parameters = b.parameters ++ [(id, p)]) (nextId : b'.nextId = b.nextId)
    (meaning : b'.IsParameter xs k id) : b'.Interned xs taken := by
  refine h.settle new table nextId ?_ (define ▸ fun _ h => h) (declare ▸ fun _ h => h)
    (parameters ▸ List.subset_append_left _ _) (.inr ⟨var, .inr meaning⟩) (fun j hj => ?_)
    (define ▸ h.ordered)
  · have hgiven : b'.given = b.given ++ [id] := by
      simp [given, define, declare, parameters]
    rw [hgiven]
    exact List.perm_append_singleton id b.given
  · rw [define, declare] at hj
    exact .inl hj

/-- An id that was handed out is forgotten. -/
theorem forget (h : b.Interned xs (id :: taken)) : b.Interned xs taken :=
  ⟨(List.nodup_cons.mp h.once).2, fun r hr => h.below r (List.mem_cons_of_mem id hr), h.unique,
    h.found, h.defined, h.ordered⟩

/-- Other parts of the state do not matter. -/
theorem same (h : b.Interned xs taken) (table : ∀ k, b'.find k = b.find k)
    (define : b'.define = b.define) (declare : b'.declare = b.declare)
    (parameters : b'.parameters = b.parameters) (nextId : b'.nextId = b.nextId) :
    b'.Interned xs taken := by
  have hkeeps : b.Keeps b' := fun k r hk => (table k).trans hk
  have hgiven : b'.given = b.given := by rw [given, given, define, declare, parameters]
  refine ⟨hgiven ▸ h.once, fun r hr => ?_, fun k k' r hk hk' => ?_, fun k r hk => ?_,
    fun i hi => ?_, define ▸ h.ordered⟩
  · rw [nextId]
    exact h.below r (hgiven ▸ hr)
  · exact h.unique k k' r (table k ▸ hk) (table k' ▸ hk')
  · exact (h.found k r (table k ▸ hk)).keeps hkeeps (define ▸ fun _ h => h) (declare ▸ fun _ h => h)
      (parameters ▸ fun _ h => h)
  · rw [define, declare] at hi
    obtain ⟨k, r, hk, hmeaning⟩ := h.defined i hi
    exact ⟨k, r, hkeeps k r hk, hmeaning.keeps hkeeps⟩

theorem definesType (h : b.Interned xs taken) (step : TypeStep b b') : b'.Interned xs taken := by
  cases step with
  | type new spelled _ ids =>
    exact (h.reserve ids).settleDefinition (k := .type _) new find_withNewType rfl rfl rfl rfl
      (.type (spelled.keeps fun _ _ h => h))
  | name => exact h.same (fun _ => rfl) rfl rfl rfl rfl

theorem defines (h : b.Interned xs taken) (step : DefinitionStep b b') : b'.Interned xs taken := by
  cases step with
  | type step => exact h.definesType step
  | pointer new known ids =>
    exact (h.reserve ids).settleDefinition (k := .pointer _ _) new find_withNewPointer rfl rfl rfl
      rfl (.pointer known)
  | value new known filled _ ids =>
    exact (h.reserve ids).settleDefinition (k := .value _ _) new find_withNewValue rfl rfl rfl rfl
      (.value known (filled.keeps fun _ _ h => h))

theorem steps {R : Builder → Builder → Prop} (step : ∀ b b', b.Interned xs taken → R b b' →
    b'.Interned xs taken) (h : b.Interned xs taken) (path : ReflTransGen R b b') :
    b'.Interned xs taken := by
  induction path with
  | refl => exact h
  | tail _ hstep ih => exact step _ _ ih hstep

/-- Every step of building keeps tables and definitions together. -/
theorem step {allowed : Opcode → Prop} (h : b.Interned xs []) (step : Step xs allowed b b') :
    b'.Interned xs [] := by
  cases step with
  | define step => exact h.defines step
  | @declare b₁ x pointer initial names known new inside typed ids path starts =>
    have h₁ : b₁.Interned xs [b.nextId] :=
      (h.reserve ids).steps (fun _ _ => defines) path
    have hkeeps : b.withReserved.Keeps b₁ := .of_steps (fun _ _ => DefinitionStep.keeps) path
    have hnew : b₁.find (.var x.id) = none :=
      (congrArg (·.lookup x.id) (declared_of_steps path)).trans new
    have hmeaning : b₁.Meaning xs (.var x.id) b.nextId (declaration x b.nextId pointer initial) :=
      .var known inside (hkeeps.pointers typed) starts
    by_cases hbody : x.qualifier.storage = .body
    · exact h₁.settleDeclaration hnew find_withVariable rfl (by simp [withVariable, hbody])
        (by simp [withVariable, hbody]) rfl rfl hmeaning
    · exact h₁.settleDefinition hnew find_withVariable (by simp [withVariable, hbody])
        (by simp [withVariable, hbody]) rfl rfl hmeaning
  | @parameter x pointer names known new outside typed ids =>
    exact (h.reserve ids).settleParameter (k := .var x.id) new find_withNewParameter rfl rfl rfl rfl
      rfl ⟨x, known, outside, rfl, pointer,
        List.mem_append_right _ (List.mem_singleton_self _), typed⟩
  | code _ _ ids => exact (h.reserve ids).forget.same (fun _ => rfl) rfl rfl rfl rfl
  | store => exact h.same (fun _ => rfl) rfl rfl rfl rfl
  | @extended b₁ b₂ set type operands imported path _ ids =>
    have h₁ : b₁.Interned xs [] := by
      obtain ⟨rfl, -⟩ | ⟨-, ids, rfl, -⟩ := imported
      · exact h
      · exact (h.reserve ids).forget.same (fun _ => rfl) rfl rfl rfl rfl
    have h₂ : b₂.Interned xs [] := h₁.steps (fun _ _ => definesType) path
    exact (h₂.reserve ids).forget.same (fun _ => rfl) rfl rfl rfl rfl

/-- Whatever is built, tables and definitions belong together. -/
theorem run {allowed : Opcode → Prop} (h : b.Interned xs [])
    (path : ReflTransGen (Step xs allowed) b b') : b'.Interned xs [] :=
  h.steps (fun _ _ => step) path

end Interned

end Builder

end ShaderExpr
