import ShaderExpr.Proofs.Build.Attains
import ShaderExpr.Proofs.Module.Ids

namespace ShaderExpr

open Instruction

namespace Builder

/-- Ids with a meaning outside of the code. -/
def outer (b : Builder) : List Id :=
  results b.front ++ b.parameters.map (·.1) ++ results b.declare

/-- All ids with a meaning. -/
def known (b : Builder) : List Id := b.outer ++ results b.code

/-- An id is the pointer to a variable or a parameter of the body function. -/
def IsVariable (b : Builder) (id : Id) : Prop :=
  (∃ type, (id, type) ∈ b.parameters) ∨
    ∃ i ∈ b.define ++ b.declare, i.op = .var ∧ i.result? = some id

/-- The ids handed out are those with a meaning, and those of `pending`, which are about to get one.
    Tables name ids that instructions in front of the code give a meaning to, and instructions stand
    behind those that they refer to. Every step of building keeps this for the pending ids that it
    leaves. -/
structure Numbered (pending : List Id) (b : Builder) : Prop where
  start : 1 ≤ b.nextId.toNat
  once : ∀ id : Id, pending.count id + b.known.count id =
    if 1 ≤ id.toNat ∧ id.toNat < b.nextId.toNat then 1 else 0
  front : Ordered [] b.front
  given : ∀ i ∈ b.define ++ b.declare, i.result?.isSome
  computed : ∀ i ∈ b.code, i.result?.isSome ∨ i.op = .store
  parameters : ∀ p ∈ b.parameters, p.2 ∈ results b.front
  declare : ∀ i ∈ b.declare, ∀ id ∈ i.uses, id ∈ results b.front
  code : Ordered b.outer b.code
  types : ∀ ty id, b.types.lookup ty = some id → id ∈ results b.front
  pointers : ∀ key id, b.pointerTypes.lookup key = some id → id ∈ results b.front
  values : ∀ key id, b.values.lookup key = some id → id ∈ results b.front
  declared : ∀ k id, b.declared.lookup k = some id → b.IsVariable id
  distinct : ∀ k k' id, b.declared.lookup k = some id → b.declared.lookup k' = some id → k = k'
  interface : ∀ id ∈ b.interface, id ∈ b.outer
  debug : ∀ i ∈ b.debug, i.op.refersAhead ∧ i.result? = none ∧
    ∀ id ∈ i.uses, 1 ≤ id.toNat ∧ id.toNat < b.nextId.toNat
  bare : b.header = [] ∧ b.decorate = []

/-- From one state to a later one, meanings were only added. -/
structure Later (b b' : Builder) : Prop where
  front : results b.front ⊆ results b'.front
  outer : b.outer ⊆ b'.outer
  places : ∀ id, b.IsVariable id → b'.IsVariable id
  code : ∃ new, b'.code = b.code ++ new
  declared : ∀ k id, b.declared.lookup k = some id → b'.declared.lookup k = some id
  nextId : b.nextId.toNat ≤ b'.nextId.toNat

variable {b b' b'' : Builder} {pending pending' : List Id} {id : Id} {i : Instruction}

theorem IsVariable.mono (h : b.IsVariable id) (define : b.define ⊆ b'.define)
    (declare : b.declare ⊆ b'.declare) (parameters : b.parameters ⊆ b'.parameters) :
    b'.IsVariable id := by
  rcases h with ⟨type, htype⟩ | ⟨i, hi, hop, hresult⟩
  · exact .inl ⟨type, parameters htype⟩
  · refine .inr ⟨i, ?_, hop, hresult⟩
    rcases List.mem_append.mp hi with hi | hi
    · exact List.mem_append_left _ (define hi)
    · exact List.mem_append_right _ (declare hi)

theorem IsVariable.mem_outer (h : b.IsVariable id) : id ∈ b.outer := by
  rcases h with ⟨type, htype⟩ | ⟨i, hi, -, hresult⟩
  · exact List.mem_append_left _ (List.mem_append_right _ (List.mem_map.mpr ⟨_, htype, rfl⟩))
  · rcases List.mem_append.mp hi with hi | hi
    · exact List.mem_append_left _ (List.mem_append_left _
        (mem_results.mpr ⟨i, List.mem_append_right _ hi, hresult⟩))
    · exact List.mem_append_right _ (mem_results.mpr ⟨i, hi, hresult⟩)

namespace Later

theorem refl (b : Builder) : b.Later b :=
  ⟨fun _ h => h, fun _ h => h, fun _ h => h, ⟨[], by simp⟩, fun _ _ h => h, Nat.le_refl _⟩

/-- Where the variables stay the same, it is enough that no result is lost and that no id is taken
    back. -/
theorem of_declared (front : results b.front ⊆ results b'.front) (outer : b.outer ⊆ b'.outer)
    (places : ∀ id, b.IsVariable id → b'.IsVariable id)
    (code : ∃ new, b'.code = b.code ++ new) (declared : b'.declared = b.declared)
    (nextId : b.nextId.toNat ≤ b'.nextId.toNat) : b.Later b' :=
  ⟨front, outer, places, code, fun _ _ h => declared ▸ h, nextId⟩

/-- Where only the tables differ that variables are not in. -/
theorem of_same (define : b'.define = b.define) (set : b'.extendedSet = b.extendedSet)
    (parameters : b'.parameters = b.parameters) (declare : b'.declare = b.declare)
    (code : b'.code = b.code) (declared : b'.declared = b.declared) (nextId : b'.nextId = b.nextId) :
    b.Later b' := by
  have hfront : b'.front = b.front := by
    rw [Builder.front, Builder.front, imports, imports, define, set]
  have houter : b'.outer = b.outer := by
    rw [Builder.outer, Builder.outer, hfront, parameters, declare]
  refine .of_declared (by rw [hfront]; exact fun _ h => h) (by rw [houter]; exact fun _ h => h)
    (fun id h => ?_) ⟨[], by simp [code]⟩ declared (Nat.le_of_eq (by rw [nextId]))
  rw [IsVariable, define, declare, parameters]
  exact h

theorem trans (h : b.Later b') (h' : b'.Later b'') : b.Later b'' := by
  obtain ⟨new, hnew⟩ := h.code
  obtain ⟨new', hnew'⟩ := h'.code
  exact ⟨fun _ hid => h'.front (h.front hid), fun _ hid => h'.outer (h.outer hid),
    fun id hid => h'.places id (h.places id hid),
    ⟨new ++ new', by rw [hnew', hnew, List.append_assoc]⟩,
    fun k id hk => h'.declared k id (h.declared k id hk), Nat.le_trans h.nextId h'.nextId⟩

theorem known (h : b.Later b') : b.known ⊆ b'.known := by
  obtain ⟨new, hnew⟩ := h.code
  intro id hid
  rcases List.mem_append.mp hid with hid | hid
  · exact List.mem_append_left _ (h.outer hid)
  · refine List.mem_append_right _ ?_
    rw [hnew, results_append]
    exact List.mem_append_left _ hid

end Later

theorem mem_outer_of_front (h : id ∈ results b.front) : id ∈ b.outer :=
  List.mem_append_left _ (List.mem_append_left _ h)

theorem mem_front_of_define (h : i ∈ b.define) (hresult : i.result? = some id) :
    id ∈ results b.front :=
  mem_results.mpr ⟨i, List.mem_append_right _ h, hresult⟩

theorem mem_known_of_outer (h : id ∈ b.outer) : id ∈ b.known := List.mem_append_left _ h

theorem mem_known_of_front (h : id ∈ results b.front) : id ∈ b.known :=
  mem_known_of_outer (mem_outer_of_front h)

theorem outer_subset (front : results b.front ⊆ results b'.front)
    (parameters : b.parameters ⊆ b'.parameters) (declare : b.declare ⊆ b'.declare) :
    b.outer ⊆ b'.outer := by
  intro id hid
  rcases List.mem_append.mp hid with hid | hid
  · refine List.mem_append_left _ ?_
    rcases List.mem_append.mp hid with hid | hid
    · exact List.mem_append_left _ (front hid)
    · exact List.mem_append_right _ (List.map_subset _ parameters hid)
  · exact List.mem_append_right _ (List.filterMap_subset _ declare hid)

theorem front_withDefinition : (b.withDefinition i).front = b.front ++ [i] := by
  simp [front, withDefinition, imports]

theorem results_withDefinition (hresult : i.result? = some id) :
    results (b.withDefinition i).front = results b.front ++ [id] := by
  rw [front_withDefinition, results_append, results_singleton, hresult]
  rfl

theorem Later.withDefinition (b : Builder) (i : Instruction) : b.Later (b.withDefinition i) := by
  have hsub : results b.front ⊆ results (b.withDefinition i).front := by
    rw [front_withDefinition, results_append]
    exact List.subset_append_left _ _
  exact .of_declared hsub (outer_subset hsub (fun _ h => h) fun _ h => h)
    (fun _ h => h.mono (List.subset_append_left _ _) (fun _ h => h) fun _ h => h)
    ⟨[], by rw [List.append_nil]; rfl⟩ rfl (Nat.le_refl _)

theorem Later.withDeclaration (b : Builder) (i : Instruction) :
    b.Later { b with declare := b.declare ++ [i] } :=
  have hsub : b.declare ⊆ b.declare ++ [i] := List.subset_append_left _ _
  .of_declared (fun _ h => h) (outer_subset (fun _ h => h) (fun _ h => h) hsub)
    (fun _ h => h.mono (fun _ h => h) hsub fun _ h => h) ⟨[], by rw [List.append_nil]⟩ rfl
    (Nat.le_refl _)

theorem Later.withParameter (b : Builder) (p : Id × Id) :
    b.Later { b with parameters := b.parameters ++ [p] } :=
  have hsub : b.parameters ⊆ b.parameters ++ [p] := List.subset_append_left _ _
  .of_declared (fun _ h => h) (outer_subset (fun _ h => h) hsub fun _ h => h)
    (fun _ h => h.mono (fun _ h => h) (fun _ h => h) hsub) ⟨[], by rw [List.append_nil]⟩ rfl
    (Nat.le_refl _)

theorem Later.withCode (b : Builder) (i : Instruction) : b.Later (b.withCode i) :=
  .of_declared (fun _ h => h) (fun _ h => h) (fun _ h => h) ⟨[i], rfl⟩ rfl (Nat.le_refl _)

theorem Later.withNextId (hmax : b.nextId ≠ 0xffffffff) :
    b.Later { b with nextId := b.nextId + 1 } :=
  .of_declared (fun _ h => h) (fun _ h => h) (fun _ h => h) ⟨[], by simp⟩ rfl
    (by simp only [toNat_add_one hmax, Nat.le_add_right])

theorem count_known {n : Nat} (code : b'.code = b.code)
    (outer : b'.outer.count id = b.outer.count id + n) :
    b'.known.count id = b.known.count id + n := by
  rw [known, known, code, List.count_append, List.count_append, outer]
  omega

namespace Numbered

/-- Ids with a meaning are among those handed out. -/
theorem bounds (h : b.Numbered pending) (hid : id ∈ pending ∨ id ∈ b.known) :
    1 ≤ id.toNat ∧ id.toNat < b.nextId.toNat := by
  have honce := h.once id
  have hpos : 0 < pending.count id + b.known.count id := by
    rcases hid with hid | hid
    · have := List.count_pos_iff.mpr hid
      omega
    · have := List.count_pos_iff.mpr hid
      omega
  by_contra hout
  rw [if_neg hout] at honce
  omega

/-- Where instructions are added and the tables stay. `once` keeps the count: an id below the next
    one is pending or the result of exactly one instruction. -/
theorem grow (h : b.Numbered pending) (later : b.Later b')
    (once : ∀ id : Id, pending'.count id + b'.known.count id =
      if 1 ≤ id.toNat ∧ id.toNat < b'.nextId.toNat then 1 else 0)
    (front : Ordered [] b'.front) (given : ∀ i ∈ b'.define ++ b'.declare, i.result?.isSome)
    (computed : ∀ i ∈ b'.code, i.result?.isSome ∨ i.op = .store)
    (parameters : ∀ p ∈ b'.parameters, p.2 ∈ results b'.front)
    (declare : ∀ i ∈ b'.declare, ∀ id ∈ i.uses, id ∈ results b'.front)
    (code : Ordered b'.outer b'.code) (types : b'.types = b.types)
    (pointers : b'.pointerTypes = b.pointerTypes) (values : b'.values = b.values)
    (declared : b'.declared = b.declared) (interface : b'.interface = b.interface)
    (debug : b'.debug = b.debug) (bare : b'.header = b.header ∧ b'.decorate = b.decorate) :
    b'.Numbered pending' where
  start := Nat.le_trans h.start later.nextId
  once := once
  front := front
  given := given
  computed := computed
  parameters := parameters
  declare := declare
  code := code
  types ty id hid := later.front (h.types ty id (types ▸ hid))
  pointers key id hid := later.front (h.pointers key id (pointers ▸ hid))
  values key id hid := later.front (h.values key id (values ▸ hid))
  declared k id hid := later.places id (h.declared k id (declared ▸ hid))
  distinct := declared ▸ h.distinct
  interface id hid := later.outer (h.interface id (interface ▸ hid))
  debug i hi := by
    obtain ⟨hahead, hresult, huses⟩ := h.debug i (debug ▸ hi)
    exact ⟨hahead, hresult, fun id hid =>
      ⟨(huses id hid).1, Nat.lt_of_lt_of_le (huses id hid).2 later.nextId⟩⟩
  bare := ⟨bare.1.trans h.bare.1, bare.2.trans h.bare.2⟩

/-- The next id is handed out. -/
theorem reserve (h : b.Numbered pending) (hmax : b.nextId ≠ 0xffffffff) :
    Numbered (b.nextId :: pending) { b with nextId := b.nextId + 1 } := by
  have hnext := toNat_add_one hmax
  refine h.grow (Later.withNextId hmax) (fun id => ?_) h.front h.given h.computed h.parameters
    h.declare h.code rfl rfl rfl rfl rfl rfl ⟨rfl, rfl⟩
  have honce := h.once id
  change (b.nextId :: pending).count id + b.known.count id = if 1 ≤ id.toNat ∧
    id.toNat < (b.nextId + 1).toNat then 1 else 0
  rw [hnext, List.count_cons]
  have hstart := h.start
  by_cases hid : b.nextId = id
  · subst hid
    simp only [beq_self_eq_true, if_true]
    rw [if_neg (by omega)] at honce
    rw [if_pos (by omega)]
    omega
  · have hne : b.nextId.toNat ≠ id.toNat := fun heq => hid (UInt32.toNat.inj heq)
    rw [beq_eq_false_iff_ne.mpr hid, if_neg (by simp), Nat.add_zero, honce]
    refine if_congr ?_ rfl rfl
    omega

/-- One of the pending ids gets its meaning. It goes from the pending ids to the known ones, so the
    sum of both counts is the same. -/
theorem settle_once (h : b.Numbered (id :: pending)) (nextId : b'.nextId = b.nextId)
    (known : ∀ other, b'.known.count other = b.known.count other + [id].count other) :
    ∀ other : Id, pending.count other + b'.known.count other =
      if 1 ≤ other.toNat ∧ other.toNat < b'.nextId.toNat then 1 else 0 := by
  intro other
  have honce := h.once other
  rw [List.count_cons] at honce
  rw [nextId, ← honce, known, List.count_singleton]
  omega

/-- One more meaning in front of the code, and nothing else. The first of the pending ids is the one
    that gets it. -/
theorem settleFront (h : b.Numbered (id :: pending))
    (results : results b'.front = results b.front ++ [id] ∨
      results b'.front = id :: results b.front)
    (front : Ordered [] b'.front)
    (define : ∃ new, b'.define = b.define ++ new ∧ ∀ i ∈ new, i.result?.isSome)
    (parameters : b'.parameters = b.parameters) (declare : b'.declare = b.declare)
    (code : b'.code = b.code) (types : b'.types = b.types)
    (pointers : b'.pointerTypes = b.pointerTypes) (values : b'.values = b.values)
    (declared : b'.declared = b.declared) (interface : b'.interface = b.interface)
    (debug : b'.debug = b.debug) (bare : b'.header = b.header ∧ b'.decorate = b.decorate)
    (nextId : b'.nextId = b.nextId) : b'.Numbered pending := by
  have hsub : Instruction.results b.front ⊆ Instruction.results b'.front := by
    rcases results with heq | heq
    · rw [heq]
      exact List.subset_append_left _ _
    · rw [heq]
      exact List.subset_cons_self _ _
  have houter : b.outer ⊆ b'.outer :=
    outer_subset hsub (parameters ▸ List.Subset.refl _) (declare ▸ List.Subset.refl _)
  obtain ⟨new, hdefine, hnew⟩ := define
  have hplaces (other : Id) (h : b.IsVariable other) : b'.IsVariable other :=
    h.mono (hdefine ▸ List.subset_append_left _ _) (declare ▸ List.Subset.refl _)
      (parameters ▸ List.Subset.refl _)
  refine h.grow (.of_declared hsub houter hplaces ⟨[], by simp [code]⟩ declared
    (Nat.le_of_eq (congrArg UInt32.toNat nextId.symm))) (h.settle_once nextId fun other => ?_) front
    (fun i hi => ?_) (code ▸ h.computed) ?_ ?_ ?_ types pointers values declared interface debug bare
  · rw [known, known, outer, outer, parameters, declare, code]
    rcases results with heq | heq <;>
      simp only [heq, List.count_append, List.count_cons, List.count_nil] <;> omega
  · rw [hdefine, declare, List.append_assoc, List.mem_append, List.mem_append] at hi
    rcases hi with hi | hi | hi
    · exact h.given i (List.mem_append_left _ hi)
    · exact hnew i hi
    · exact h.given i (List.mem_append_right _ hi)
  · rw [parameters]
    exact fun p hp => hsub (h.parameters p hp)
  · rw [declare]
    exact fun i hi x hx => hsub (h.declare i hi x hx)
  · rw [code]
    exact h.code.mono houter

/-- An instruction behind the definitions. -/
theorem settleDefinition (h : b.Numbered (id :: pending)) (hresult : i.result? = some id)
    (uses : ∀ x ∈ i.uses, x ∈ results b.front) : (b.withDefinition i).Numbered pending := by
  refine h.settleFront (.inl (results_withDefinition hresult)) ?_ ⟨[i], rfl, by simp [hresult]⟩ rfl
    rfl rfl rfl rfl rfl rfl rfl rfl ⟨rfl, rfl⟩ rfl
  rw [front_withDefinition]
  exact ordered_append.mpr ⟨h.front, ordered_singleton.mpr fun _ => uses⟩

/-- The import of extended instructions. -/
theorem settleImport (h : b.Numbered (id :: pending)) (new : b.extendedSet = none) :
    Numbered pending { b with extendedSet := some id } := by
  have hfront : Builder.front { b with extendedSet := some id } =
      ⟨.extInstImport, id :: Typing.extendedSetName⟩ :: b.front := by
    simp [Builder.front, imports, new]
  refine h.settleFront (.inr ?_) ?_ ⟨[], by simp, by simp⟩ rfl rfl rfl rfl rfl rfl rfl rfl rfl
    ⟨rfl, rfl⟩ rfl
  · rw [hfront]
    rfl
  · rw [hfront]
    exact ⟨fun _ => by simp [uses], h.front.mono (List.nil_subset _)⟩

/-- An instruction with a result behind the code. -/
theorem settleCode (h : b.Numbered (id :: pending)) (hresult : i.result? = some id)
    (uses : ∀ x ∈ i.uses, x ∈ b.known) : (b.withCode i).Numbered pending := by
  have hcode : results (b.withCode i).code = results b.code ++ [id] := by
    rw [Builder.withCode, results_append, results_singleton, hresult]
    rfl
  refine h.grow (.withCode b i) (h.settle_once rfl fun other => ?_) h.front h.given
    (fun j hj => ?_) h.parameters h.declare ?_ rfl rfl rfl rfl rfl rfl ⟨rfl, rfl⟩
  · change (b.outer ++ results (b.withCode i).code).count other = _
    simp only [known, hcode, List.count_append]
    omega
  · rcases List.mem_append.mp hj with hj | hj
    · exact h.computed j hj
    · rw [List.mem_singleton.mp hj, hresult]
      exact .inl rfl
  · exact ordered_append.mpr ⟨h.code, ordered_singleton.mpr fun _ => uses⟩

/-- A store behind the code. -/
theorem withStore (h : b.Numbered pending) {operands : List UInt32}
    (uses : ∀ x ∈ operands, x ∈ b.known) :
    (b.withCode ⟨.store, operands⟩).Numbered pending := by
  have hresult : Instruction.result? ⟨.store, operands⟩ = none := rfl
  have hcode : results (b.withCode ⟨.store, operands⟩).code = results b.code := by
    rw [Builder.withCode, results_append, results_singleton, hresult]
    simp
  refine h.grow (.withCode b _) (fun other => ?_) h.front h.given (fun j hj => ?_) h.parameters
    h.declare ?_ rfl rfl rfl rfl rfl rfl ⟨rfl, rfl⟩
  · change pending.count other +
      (b.outer ++ results (b.withCode ⟨.store, operands⟩).code).count other = _
    rw [hcode]
    exact h.once other
  · rcases List.mem_append.mp hj with hj | hj
    · exact h.computed j hj
    · rw [List.mem_singleton.mp hj]
      exact .inr rfl
  · exact ordered_append.mpr ⟨h.code, ordered_singleton.mpr fun _ => uses⟩

/-- A variable of the body function. -/
theorem settleDeclaration (h : b.Numbered (id :: pending)) (hresult : i.result? = some id)
    (uses : ∀ x ∈ i.uses, x ∈ results b.front) :
    Numbered pending { b with declare := b.declare ++ [i] } := by
  have hdeclare : results (b.declare ++ [i]) = results b.declare ++ [id] := by
    rw [results_append, results_singleton, hresult]
    rfl
  have houter : outer { b with declare := b.declare ++ [i] } = b.outer ++ [id] := by
    change results b.front ++ b.parameters.map (·.1) ++ results (b.declare ++ [i]) = _
    rw [hdeclare, outer, List.append_assoc, List.append_assoc, List.append_assoc]
  have hlater : b.Later { b with declare := b.declare ++ [i] } := .withDeclaration b i
  refine h.grow hlater (h.settle_once rfl fun other => ?_) h.front (fun j hj => ?_) h.computed
    h.parameters ?_ (h.code.mono hlater.outer) rfl rfl rfl rfl rfl rfl ⟨rfl, rfl⟩
  · exact count_known rfl (by rw [houter, List.count_append])
  · rw [← List.append_assoc] at hj
    rcases List.mem_append.mp hj with hj | hj
    · exact h.given j hj
    · rw [List.mem_singleton.mp hj, hresult]
      rfl
  · intro j hj
    rcases List.mem_append.mp hj with hj | hj
    · exact h.declare j hj
    · rw [List.mem_singleton.mp hj]
      exact uses

/-- A parameter of the body function. -/
theorem settleParameter (h : b.Numbered (id :: pending)) {pointer : Id}
    (hpointer : pointer ∈ results b.front) :
    Numbered pending { b with parameters := b.parameters ++ [(id, pointer)] } := by
  have houter (other : Id) : (outer { b with parameters := b.parameters ++ [(id, pointer)] }).count
      other = b.outer.count other + [id].count other := by
    change (results b.front ++ (b.parameters ++ [(id, pointer)]).map (·.1) ++
      results b.declare).count other = _
    simp only [outer, List.map_append, List.map_cons, List.map_nil, List.count_append]
    omega
  have hlater : b.Later { b with parameters := b.parameters ++ [(id, pointer)] } :=
    .withParameter b _
  refine h.grow hlater (h.settle_once rfl fun other => count_known rfl (houter other)) h.front
    h.given h.computed ?_ h.declare (h.code.mono hlater.outer) rfl rfl rfl rfl rfl rfl ⟨rfl, rfl⟩
  intro p hp
  rcases List.mem_append.mp hp with hp | hp
  · exact h.parameters p hp
  · rw [List.mem_singleton.mp hp]
    exact hpointer

/-- Other parts of the state do not matter. Tables may change as long as their ids are those of
    results in front of the code, or of variables. -/
theorem same (h : b.Numbered pending) (front : b'.front = b.front)
    (define : b'.define = b.define) (parameters : b'.parameters = b.parameters)
    (declare : b'.declare = b.declare)
    (code : b'.code = b.code) (nextId : b'.nextId = b.nextId)
    (types : ∀ ty id, b'.types.lookup ty = some id → id ∈ results b.front)
    (pointers : ∀ key id, b'.pointerTypes.lookup key = some id → id ∈ results b.front)
    (values : ∀ key id, b'.values.lookup key = some id → id ∈ results b.front)
    (declared : ∀ k id, b'.declared.lookup k = some id → b.IsVariable id)
    (distinct : ∀ k k' id, b'.declared.lookup k = some id → b'.declared.lookup k' = some id → k = k')
    (interface : ∀ id ∈ b'.interface, id ∈ b.outer)
    (debug : ∀ i ∈ b'.debug, i.op.refersAhead ∧ i.result? = none ∧
      ∀ id ∈ i.uses, 1 ≤ id.toNat ∧ id.toNat < b.nextId.toNat)
    (bare : b'.header = b.header ∧ b'.decorate = b.decorate) : b'.Numbered pending := by
  have houter : b'.outer = b.outer := by rw [outer, outer, front, parameters, declare]
  refine ⟨?_, ?_, ?_, ?_, ?_, ?_, ?_, ?_, ?_, ?_, ?_, ?_, distinct, ?_, ?_, ?_⟩
  · exact nextId ▸ h.start
  · rw [known, houter, code, nextId]
    exact h.once
  · exact front ▸ h.front
  · rw [define, declare]
    exact h.given
  · exact code ▸ h.computed
  · rw [parameters, front]
    exact h.parameters
  · rw [declare, front]
    exact h.declare
  · rw [houter, code]
    exact h.code
  · rw [front]
    exact types
  · rw [front]
    exact pointers
  · rw [front]
    exact values
  · exact fun k id hid => (declared k id hid).mono (define ▸ List.Subset.refl _)
      (declare ▸ List.Subset.refl _) (parameters ▸ List.Subset.refl _)
  · rw [houter]
    exact interface
  · rw [nextId]
    exact debug
  · exact ⟨bare.1.trans h.bare.1, bare.2.trans h.bare.2⟩

end Numbered

/-- One more entry of a table. -/
theorem lookup_cons_of {κ : Type} [BEq κ] {table : List (κ × Id)} {key : κ} {P : Id → Prop}
    (hid : P id) (h : ∀ k other, table.lookup k = some other → P other) :
    ∀ k other, List.lookup k ((key, id) :: table) = some other → P other := by
  intro k other hlookup
  rw [List.lookup_cons] at hlookup
  split at hlookup
  · exact Option.some.inj hlookup ▸ hid
  · exact h k other hlookup

namespace Numbered

theorem withType (h : b.Numbered pending) {ty : Ty} (hid : id ∈ results b.front) :
    Numbered pending { b with types := (ty, id) :: b.types } :=
  h.same rfl rfl rfl rfl rfl rfl (lookup_cons_of hid h.types) h.pointers h.values h.declared h.distinct
    h.interface h.debug ⟨rfl, rfl⟩

theorem withPointer (h : b.Numbered pending) {key : Ty × StorageClass}
    (hid : id ∈ results b.front) :
    Numbered pending { b with pointerTypes := (key, id) :: b.pointerTypes } :=
  h.same rfl rfl rfl rfl rfl rfl h.types (lookup_cons_of hid h.pointers) h.values h.declared h.distinct
    h.interface h.debug ⟨rfl, rfl⟩

theorem withValue (h : b.Numbered pending) {key : Ty × List UInt8} (hid : id ∈ results b.front) :
    Numbered pending { b with values := (key, id) :: b.values } :=
  h.same rfl rfl rfl rfl rfl rfl h.types h.pointers (lookup_cons_of hid h.values) h.declared h.distinct
    h.interface h.debug ⟨rfl, rfl⟩

theorem withDeclared (h : b.Numbered pending) {k : Nat} (hid : b.IsVariable id)
    (other : ∀ k, b.declared.lookup k ≠ some id) :
    Numbered pending { b with declared := (k, id) :: b.declared } := by
  refine h.same rfl rfl rfl rfl rfl rfl h.types h.pointers h.values (lookup_cons_of hid h.declared) ?_
    h.interface h.debug ⟨rfl, rfl⟩
  intro m m' x hm hm'
  rw [List.lookup_cons] at hm hm'
  split at hm
  · rename_i heq
    obtain rfl := Option.some.inj hm
    split at hm'
    · rename_i heq'
      exact (eq_of_beq heq).trans (eq_of_beq heq').symm
    · exact absurd hm' (other m')
  · split at hm'
    · obtain rfl := Option.some.inj hm'
      exact absurd hm (other m)
    · exact h.distinct m m' x hm hm'

theorem withInterface (h : b.Numbered pending) (hid : id ∈ b.outer) :
    Numbered pending { b with interface := b.interface ++ [id] } := by
  refine h.same rfl rfl rfl rfl rfl rfl h.types h.pointers h.values h.declared h.distinct ?_ h.debug
    ⟨rfl, rfl⟩
  intro other hother
  rcases List.mem_append.mp hother with hother | hother
  · exact h.interface other hother
  · rw [List.mem_singleton.mp hother]
    exact hid

theorem withDebug (h : b.Numbered pending) (ahead : i.op.refersAhead) (hresult : i.result? = none)
    (uses : ∀ x ∈ i.uses, 1 ≤ x.toNat ∧ x.toNat < b.nextId.toNat) :
    Numbered pending { b with debug := b.debug ++ [i] } := by
  refine h.same rfl rfl rfl rfl rfl rfl h.types h.pointers h.values h.declared h.distinct h.interface
    ?_ ⟨rfl, rfl⟩
  intro j hj
  rcases List.mem_append.mp hj with hj | hj
  · exact h.debug j hj
  · rw [List.mem_singleton.mp hj]
    exact ⟨ahead, hresult, uses⟩

end Numbered

end Builder

end ShaderExpr
