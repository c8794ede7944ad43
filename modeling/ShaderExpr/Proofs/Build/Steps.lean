import Mathlib.Data.List.Nodup
import ShaderExpr.Proofs.Build.Growth

namespace ShaderExpr

open Typing

namespace Builder

variable {xs : List Variable} {casts : Bool} {b b₀ b' : Builder} {i : Instruction} {id : Id}

/-- An id that no instruction gives a meaning to, although it was handed out. What defines it next
    cannot define it a second time. -/
structure Unused (b : Builder) (id : Id) : Prop where
  reserved : id.toNat < b.nextId.toNat
  unused : ∀ i ∈ b.emitted, i.result? ≠ some id

theorem Unused.mono (h : b.Unused id) (hgrows : b.Grows b') : b'.Unused id := by
  refine ⟨Nat.lt_of_lt_of_le h.reserved hgrows.nextId, fun i hi hr => ?_⟩
  rcases hgrows.fresh i hi id hr with hi | hle
  · exact h.unused i hi hr
  · exact absurd h.reserved (by omega)

theorem mem_emitted {b : Builder} : i ∈ b.emitted ↔ i ∈ b.imports ∨ i ∈ b.define ∨ i ∈ b.code := by
  simp [emitted, front]

/-- An instruction behind the definitions. -/
def withDefinition (b : Builder) (i : Instruction) : Builder := { b with define := b.define ++ [i] }

/-- An instruction behind the code. -/
def withCode (b : Builder) (i : Instruction) : Builder := { b with code := b.code ++ [i] }

/-- Other names for debuggers. -/
def withDebug (b : Builder) (debug : List Instruction) : Builder := { b with debug }

theorem Includes.of_same (types : b'.types = b.types) (front : b'.front = b.front)
    (code : b'.code = b.code) : b'.Includes b := by
  refine ⟨?_, ?_, ⟨[], by simp [code]⟩⟩
  · rw [types]
    exact fun _ _ h => h
  · rw [front]
    exact fun _ h => h

theorem Includes.withDefinition (b : Builder) (i : Instruction) :
    (b.withDefinition i).Includes b := by
  refine ⟨fun _ _ h => h, fun j hj => ?_, ⟨[], by simp [Builder.withDefinition]⟩⟩
  rcases List.mem_append.mp hj with hj | hj
  · exact List.mem_append_left _ hj
  · exact List.mem_append_right _ (List.mem_append_left _ hj)

theorem Includes.withCode (b : Builder) (i : Instruction) : (b.withCode i).Includes b :=
  ⟨fun _ _ h => h, fun _ h => h, ⟨[i], rfl⟩⟩

theorem mem_emitted_withDefinition {j : Instruction} :
    j ∈ (b.withDefinition i).emitted ↔ j ∈ b.emitted ∨ j = i := by
  simp only [mem_emitted, withDefinition, imports, List.mem_append, List.mem_singleton]
  tauto

theorem mem_emitted_withCode {j : Instruction} :
    j ∈ (b.withCode i).emitted ↔ j ∈ b.emitted ∨ j = i := by
  simp only [mem_emitted, withCode, imports, List.mem_append, List.mem_singleton]
  tauto

namespace Grows

theorem withDefinition (h : b₀.Grows b) (new : ∀ r, i.result? = some r →
    b₀.nextId.toNat ≤ r.toNat) : b₀.Grows (b.withDefinition i) := by
  refine ⟨h.includes.trans (.withDefinition b i), h.options, h.declared, h.nextId, ?_⟩
  intro j hj r hr
  rcases mem_emitted_withDefinition.mp hj with hj | rfl
  · exact h.fresh j hj r hr
  · exact .inr (new r hr)

theorem withCode (h : b₀.Grows b) (new : ∀ r, i.result? = some r →
    b₀.nextId.toNat ≤ r.toNat) : b₀.Grows (b.withCode i) := by
  refine ⟨h.includes.trans (.withCode b i), h.options, h.declared, h.nextId, ?_⟩
  intro j hj r hr
  rcases mem_emitted_withCode.mp hj with hj | rfl
  · exact h.fresh j hj r hr
  · exact .inr (new r hr)

theorem withId (h : b₀.Grows b) {n : Id} (hn : b.nextId.toNat ≤ n.toNat) :
    b₀.Grows { b with nextId := n } :=
  ⟨h.includes.trans (.of_same rfl rfl rfl), h.options, h.declared,
    Nat.le_trans h.nextId hn, h.fresh⟩

theorem withType (h : b₀.Grows b) {ty : Ty} {t : Id} (new : b.types.lookup ty = none) :
    b₀.Grows { b with types := (ty, t) :: b.types } := by
  refine ⟨⟨fun u v hu => ?_, h.includes.front, h.includes.code⟩, h.options, h.declared, h.nextId,
    h.fresh⟩
  have hu := h.includes.types u v hu
  have hne : (u == ty) = false := by
    refine beq_eq_false_iff_ne.mpr ?_
    rintro rfl
    simp [new] at hu
  rw [List.lookup_cons, hne]
  exact hu

theorem withDeclared (h : b₀.Grows b) {k : Nat} (id : Id) (new : b.declared.lookup k = none) :
    b₀.Grows { b with declared := (k, id) :: b.declared } := by
  refine ⟨h.includes.trans (.of_same rfl rfl rfl), h.options, fun k' id' hk => ?_,
    h.nextId, h.fresh⟩
  have hk := h.declared k' id' hk
  have hne : (k' == k) = false := by
    refine beq_eq_false_iff_ne.mpr ?_
    rintro rfl
    simp [new] at hk
  rw [List.lookup_cons, hne]
  exact hk

/-- Other parts of the state do not matter: names, options and the header are free to change. -/
theorem same (h : b₀.Grows b) (options : b'.options = b.options) (types : b'.types = b.types)
    (front : b'.front = b.front) (code : b'.code = b.code) (declared : b'.declared = b.declared)
    (nextId : b'.nextId = b.nextId) : b₀.Grows b' := by
  refine ⟨h.includes.trans (.of_same types front code), options.trans h.options, ?_, ?_, ?_⟩
  · rw [declared]
    exact h.declared
  · rw [nextId]
    exact h.nextId
  · rw [emitted, front, code]
    exact h.fresh

end Grows

theorem toNat_add_one {n : UInt32} (h : n ≠ 0xffffffff) : (n + 1).toNat = n.toNat + 1 := by
  have hlt := n.toNat_lt
  have hne : n.toNat ≠ 4294967295 := fun hn => h (UInt32.toNat.inj hn)
  rw [UInt32.toNat_add, UInt32.toNat_one]
  omega

namespace Sound

/-- Tables stay true where instructions are added. The tables, the parameters and the declarations
    are those of before, so only the instructions need a look. -/
theorem includes (hs : b.Sound xs casts) (h : b'.Includes b) (typed : Follows [] b'.emitted)
    (known : ∀ i ∈ b'.emitted, ∀ r, i.result? = some r → r.toNat < b'.nextId.toNat)
    (floating : casts = false → ∀ i ∈ b'.emitted, FloatingColumns b'.emitted i)
    (types : b'.types = b.types) (pointers : b'.pointerTypes = b.pointerTypes)
    (values : b'.values = b.values) (declared : b'.declared = b.declared)
    (nextId : b.nextId.toNat ≤ b'.nextId.toNat) (parameters : b'.parameters = b.parameters)
    (declare : b'.declare = b.declare) : b'.Sound xs casts := by
  refine ⟨hs.valid, hs.ids, typed, known, floating, ?_, ?_, ?_, ?_, ?_, ?_,
    parameters.trans hs.parameters, declare.trans hs.declare⟩
  · rw [types]
    exact fun ty t ht => (hs.types ty t ht).mono h
  · rw [types, pointers]
    intro ty storage t ht
    obtain ⟨pointee, hpointee, hdeclared⟩ := hs.pointers ty storage t ht
    exact ⟨pointee, hpointee, h.front hdeclared⟩
  · rw [values]
    exact fun ty data id hid => (hs.values ty data id hid).mono h
  · rw [declared]
    exact fun x hx id hid => (hs.declared x hx id hid).mono h
  · rw [declared]
    exact fun k id hk => Nat.lt_of_lt_of_le (hs.reserved k id hk) nextId
  · rw [declared]
    exact hs.distinct

/-- Other parts of the state do not matter. -/
theorem same (hs : b.Sound xs casts) (types : b'.types = b.types) (front : b'.front = b.front)
    (code : b'.code = b.code) (pointers : b'.pointerTypes = b.pointerTypes)
    (values : b'.values = b.values) (declared : b'.declared = b.declared)
    (nextId : b'.nextId = b.nextId) (parameters : b'.parameters = b.parameters)
    (declare : b'.declare = b.declare) : b'.Sound xs casts := by
  have hemitted : b'.emitted = b.emitted := by rw [emitted, emitted, front, code]
  refine hs.includes (.of_same types front code) ?_ ?_ ?_ types pointers values declared
    (Nat.le_of_eq (by rw [nextId])) parameters declare
  · rw [hemitted]
    exact hs.typed
  · rw [hemitted, nextId]
    exact hs.known
  · rw [hemitted]
    exact hs.floating

theorem unused_nextId (hs : b.Sound xs casts) (hmax : b.nextId ≠ 0xffffffff) :
    Unused { b with nextId := b.nextId + 1 } b.nextId := by
  refine ⟨?_, fun i hi hr => Nat.lt_irrefl _ (hs.known i hi _ hr)⟩
  have hnext : (b.nextId + 1).toNat = b.nextId.toNat + 1 := toNat_add_one hmax
  exact hnext ▸ Nat.lt_succ_self _

theorem withId (hs : b.Sound xs casts) {n : Id} (hn : b.nextId.toNat ≤ n.toNat) :
    Sound xs casts { b with nextId := n } :=
  hs.includes (.of_same rfl rfl rfl) hs.typed
    (fun i hi r hr => Nat.lt_of_lt_of_le (hs.known i hi r hr) hn) hs.floating rfl rfl rfl rfl hn
    rfl rfl

theorem apart (hid : b.Unused id) (hresult : i.result? = some id) : Apart [i] b.emitted := by
  intro j hj r hr k hk hkr
  rw [List.mem_singleton.mp hj, hresult] at hr
  rw [← Option.some.inj hr] at hkr
  exact hid.unused k hk hkr

theorem withDefinition (hs : b.Sound xs casts) (hid : b.Unused id) (hresult : i.result? = some id)
    (rule : Rule b.front i) (columns : casts = false → FloatingColumns b.front i) :
    (b.withDefinition i).Sound xs casts := by
  refine hs.includes (.withDefinition b i) ?_ ?_ ?_ rfl rfl rfl rfl (Nat.le_refl _) rfl rfl
  · obtain ⟨hfront, hcode⟩ := follows_append.mp hs.typed
    have hnew : Follows b.front [i] := follows_singleton rule fun j hj r hr k hk =>
      apart hid hresult j hj r hr k (b.front_subset_emitted hk)
    have hall : (b.withDefinition i).emitted = (b.front ++ [i]) ++ b.code := by
      simp [emitted, front, Builder.withDefinition, imports]
    rw [hall]
    refine follows_append.mpr ⟨follows_append.mpr ⟨hfront, hnew⟩, ?_⟩
    refine hcode.mono (List.subset_append_left _ _) ?_
    intro j hj r hr k hk
    rw [List.nil_append] at hk
    rcases List.mem_append.mp hk with hk | hk
    · exact follows_apart hcode j hj r hr k hk
    · rw [List.mem_singleton.mp hk, hresult]
      intro heq
      rw [← Option.some.inj heq] at hr
      exact hid.unused j (List.mem_append_right _ hj) hr
  · intro j hj r hr
    rcases mem_emitted_withDefinition.mp hj with hj | rfl
    · exact hs.known j hj r hr
    · rw [hresult] at hr
      rw [← Option.some.inj hr]
      exact hid.reserved
  · intro hcasts j hj
    have hsub : b.emitted ⊆ (b.withDefinition i).emitted :=
      fun _ hk => mem_emitted_withDefinition.mpr (.inl hk)
    rcases mem_emitted_withDefinition.mp hj with hj | rfl
    · exact (hs.floating hcasts j hj).mono hsub
    · exact (columns hcasts).mono fun _ hk => hsub (b.front_subset_emitted hk)

theorem withCode (hs : b.Sound xs casts) (hid : ∀ r, i.result? = some r → b.Unused r)
    (rule : Rule b.emitted i) (other : i.op ≠ .typeMatrix) : (b.withCode i).Sound xs casts := by
  refine hs.includes (.withCode b i) ?_ ?_ ?_ rfl rfl rfl rfl (Nat.le_refl _) rfl rfl
  · have hall : (b.withCode i).emitted = b.emitted ++ [i] := by
      simp [emitted, front, Builder.withCode, imports]
    rw [hall]
    refine follows_append.mpr ⟨hs.typed, follows_singleton rule fun j hj r hr => ?_⟩
    rw [List.mem_singleton.mp hj] at hr
    exact (hid r hr).unused
  · intro j hj r hr
    rcases mem_emitted_withCode.mp hj with hj | rfl
    · exact hs.known j hj r hr
    · exact (hid r hr).reserved
  · intro hcasts j hj
    rcases mem_emitted_withCode.mp hj with hj | rfl
    · exact (hs.floating hcasts j hj).mono fun _ hk => mem_emitted_withCode.mpr (.inl hk)
    · exact floatingColumns_of_op other

theorem withType (hs : b.Sound xs casts) {ty : Ty} {t : Id} (new : b.types.lookup ty = none)
    (declares : b.Declares ty t) : Sound xs casts { b with types := (ty, t) :: b.types } := by
  have hincludes : Includes { b with types := (ty, t) :: b.types } b :=
    ((Grows.refl b).withType new).includes
  refine ⟨hs.valid, hs.ids, hs.typed, hs.known, hs.floating, fun u v hu => ?_,
    fun u storage v hu => ?_, fun u data id hid => (hs.values u data id hid).mono hincludes,
    fun x hx id hid => (hs.declared x hx id hid).mono hincludes, hs.reserved, hs.distinct,
    hs.parameters, hs.declare⟩
  · rw [List.lookup_cons] at hu
    split at hu
    · rename_i heq
      obtain rfl := eq_of_beq heq
      obtain rfl := Option.some.inj hu
      exact declares.mono hincludes
    · exact (hs.types u v hu).mono hincludes
  · obtain ⟨pointee, hpointee, hdeclared⟩ := hs.pointers u storage v hu
    exact ⟨pointee, hincludes.types _ _ hpointee, hdeclared⟩

theorem withPointer (hs : b.Sound xs casts) {ty : Ty} {storage : StorageClass} {t pointee : Id}
    (hpointee : b.types.lookup ty = some pointee)
    (declared : ⟨.typePointer, [t, storage.number, pointee]⟩ ∈ b.front) :
    Sound xs casts { b with pointerTypes := ((ty, storage), t) :: b.pointerTypes } := by
  have hincludes : Includes { b with pointerTypes := ((ty, storage), t) :: b.pointerTypes } b :=
    .of_same rfl rfl rfl
  refine ⟨hs.valid, hs.ids, hs.typed, hs.known, hs.floating,
    fun u v hu => (hs.types u v hu).mono hincludes,
    fun u storage' v hu => ?_, fun u data id hid => (hs.values u data id hid).mono hincludes,
    fun x hx id hid => (hs.declared x hx id hid).mono hincludes, hs.reserved, hs.distinct,
    hs.parameters, hs.declare⟩
  rw [List.lookup_cons] at hu
  split at hu
  · rename_i heq
    obtain ⟨rfl, rfl⟩ := Prod.mk.inj (eq_of_beq heq)
    obtain rfl := Option.some.inj hu
    exact ⟨pointee, hpointee, declared⟩
  · exact hs.pointers u storage' v hu

theorem withValue (hs : b.Sound xs casts) {ty : Ty} {data : List UInt8} {id : Id}
    (holds : b.Holds ty data id) : Sound xs casts { b with values := ((ty, data), id) :: b.values } := by
  have hincludes : Includes { b with values := ((ty, data), id) :: b.values } b :=
    .of_same rfl rfl rfl
  refine ⟨hs.valid, hs.ids, hs.typed, hs.known, hs.floating,
    fun u v hu => (hs.types u v hu).mono hincludes,
    hs.pointers, fun u data' v hu => ?_,
    fun x hx id hid => (hs.declared x hx id hid).mono hincludes, hs.reserved, hs.distinct,
    hs.parameters, hs.declare⟩
  rw [List.lookup_cons] at hu
  split at hu
  · rename_i heq
    obtain ⟨rfl, rfl⟩ := Prod.mk.inj (eq_of_beq heq)
    obtain rfl := Option.some.inj hu
    exact holds.mono hincludes
  · exact (hs.values u data' v hu).mono hincludes

theorem withDeclared (hs : b.Sound xs casts) {x : Variable} {id : Id} (hx : x ∈ xs)
    (reserved : id.toNat < b.nextId.toNat) (other : ∀ k, b.declared.lookup k ≠ some id)
    (declares : b.DeclaresVariable x id) :
    Sound xs casts { b with declared := (x.id, id) :: b.declared } := by
  have hincludes : Includes { b with declared := (x.id, id) :: b.declared } b :=
    .of_same rfl rfl rfl
  refine ⟨hs.valid, hs.ids, hs.typed, hs.known, hs.floating,
    fun u v hu => (hs.types u v hu).mono hincludes,
    hs.pointers, fun u data id hid => (hs.values u data id hid).mono hincludes,
    fun y hy id' hid => ?_, fun k id' hk => ?_, fun k k' id' hk hk' => ?_, hs.parameters,
    hs.declare⟩
  · rw [List.lookup_cons] at hid
    split at hid
    · rename_i heq
      obtain rfl := List.inj_on_of_nodup_map hs.ids hy hx (eq_of_beq heq)
      obtain rfl := Option.some.inj hid
      exact declares.mono hincludes
    · exact (hs.declared y hy id' hid).mono hincludes
  · rw [List.lookup_cons] at hk
    split at hk
    · rw [← Option.some.inj hk]
      exact reserved
    · exact hs.reserved k id' hk
  · rw [List.lookup_cons] at hk hk'
    split at hk
    · rename_i heq
      split at hk'
      · rename_i heq'
        exact (eq_of_beq heq).trans (eq_of_beq heq').symm
      · rw [← Option.some.inj hk] at hk'
        exact absurd hk' (other k')
    · split at hk'
      · rw [← Option.some.inj hk'] at hk
        exact absurd hk (other k)
      · exact hs.distinct k k' id' hk hk'

end Sound

end Builder

end ShaderExpr
