import ShaderExpr.Proofs.Interning.Tables
import ShaderExpr.Proofs.Interning.Traces

namespace ShaderExpr

open Relation Instruction

/-- A call on a module under construction that returns an id. -/
inductive Request
  | type (ty : Ty)
  | pointer (ty : Ty) (storage : Storage)
  | value (v : Value)
  | var (x : Variable)
  | splat (id : Id) (ty : Ty)
  | convert (id : Id) (source target : Ty)
  | code (op : Opcode) (ty : Ty) (operands : List UInt32)
  | extended (ty : Ty) (number : UInt32) (arguments : List UInt32)

namespace Request

def run : Request → Build Id
  | type ty => Build.typeId ty
  | pointer ty storage => Build.pointerTypeId ty storage
  | value v => Build.valueId v
  | var x => Build.variableId x
  | splat id ty => Build.splat id ty
  | convert id source target => Build.convert id source target
  | code op ty operands => Build.emit op ty operands
  | extended ty number arguments => Build.emitExtended ty number arguments

/-- What a request asks for, if it is interned. Storage classes of the module tell pointer types
    apart, and variables are known by their numbers alone. -/
def key? : Request → Option Key
  | type ty => some (.type ty)
  | pointer ty storage => some (.pointer ty storage.storageClass)
  | value v => some (.value v.ty v.data)
  | var x => some (.var x.id)
  | _ => none

/-- The variable that a request is about. -/
def var? : Request → Option Variable
  | var x => some x
  | _ => none

end Request

namespace Builder

/-- An instruction among the definitions and declarations gives a key its id. No other one has this
    id, and what it refers to is defined in front of it. -/
def DefinedOnce (xs : List Variable) (b : Builder) (k : Key) (id : Id) : Prop :=
  ∃ front i behind, b.define ++ b.declare = front ++ i :: behind ∧ b.Meaning xs k id i ∧
    id ∉ results (front ++ behind) ∧ ∀ u ∈ i.uses, u ∈ results front

/-- What requests and the ids that they returned say of the module that they left. -/
structure Interning (requests : List Request) (ids : List Id) (b : Builder) : Prop where
  answered : ids.length = requests.length
  /-- Ids tell keys apart. -/
  same : ∀ p ∈ requests.zip ids, ∀ q ∈ requests.zip ids, ∀ k k', p.1.key? = some k →
    q.1.key? = some k' → (p.2 = q.2 ↔ k = k')
  /-- Parameters are not defined here, since they are operands of the body function. -/
  once : ∀ p ∈ requests.zip ids, ∀ k, p.1.key? = some k →
    b.DefinedOnce (requests.filterMap (·.var?)) k p.2 ∨
      b.IsParameter (requests.filterMap (·.var?)) k p.2
  only : ∀ i ∈ b.define ++ b.declare, ∃ k id, b.find k = some id ∧
    b.Meaning (requests.filterMap (·.var?)) k id i
  /-- Types other than structs are not defined twice. -/
  apart : b.define.Pairwise fun i j => i.op.isType → i.op ≠ .typeStruct → j.op = i.op →
    j.operands.drop 1 ≠ i.operands.drop 1

variable {xs : List Variable} {taken : List Id} {b b' : Builder} {k k' : Key} {id id' : Id}
  {i j : Instruction}

theorem dim_of_word {n m : Dim} (h : UInt32.ofNat n.toNat = UInt32.ofNat m.toNat) : n = m := by
  cases n <;> cases m <;> first | rfl | exact absurd h (by decide)

theorem class_of_number {c c' : StorageClass} (h : c.number = c'.number) : c = c' := by
  cases c <;> cases c' <;> first | rfl | exact absurd h (by decide)

/-- Types other than structs are spelled differently. Two structs with the same members have
    instructions that differ only in their ids. -/
theorem Spells.injective (h : b.Interned xs taken) {ty ty' : Ty} {op op' : Opcode}
    {operands operands' : List UInt32} (hs : b.Spells ty op operands)
    (hs' : b.Spells ty' op' operands') (hop : op' = op) (hoperands : operands' = operands)
    (plain : op ≠ .typeStruct) : ty = ty' := by
  have htype {t t' : Ty} {c c' : Id} (hc : b.types.lookup t = some c)
      (hc' : b.types.lookup t' = some c') (heq : c' = c) : t = t' := by
    subst heq
    exact Key.type.inj (h.unique (.type t) (.type t') _ hc hc')
  cases hs with
  | void | bool | float | double | int | uint =>
    cases hs' <;> first | rfl | exact absurd hop (by decide) | exact absurd hoperands (by decide)
  | vector component =>
    cases hs' with
    | vector component' =>
      simp only [List.cons.injEq, and_true] at hoperands
      obtain rfl := Ty.scalar.inj (htype component component' hoperands.1)
      rw [dim_of_word hoperands.2]
    | _ => simp at hop
  | matrix column =>
    cases hs' with
    | matrix column' =>
      simp only [List.cons.injEq, and_true] at hoperands
      obtain ⟨rfl, rfl⟩ := Ty.vector.inj (htype column column' hoperands.1)
      rw [dim_of_word hoperands.2]
    | _ => simp at hop
  | struct => exact absurd rfl plain

theorem Spells.op_ne_pointer {ty : Ty} {op : Opcode} {operands : List UInt32}
    (h : b.Spells ty op operands) : op ≠ .typePointer := by
  cases h <;> simp

/-- Definitions of types other than structs tell keys apart. -/
theorem Meaning.key_unique (h : b.Interned xs taken) (hi : b.Meaning xs k id i)
    (hj : b.Meaning xs k' id' j) (hty : i.op.isType) (plain : i.op ≠ .typeStruct)
    (hop : j.op = i.op) (hoperands : j.operands.drop 1 = i.operands.drop 1) : k = k' := by
  have hty' : j.op.isType := by
    rw [hop]
    exact hty
  cases hi with
  | type spelled =>
    cases hj with
    | type spelled' => rw [spelled.injective h spelled' hop hoperands plain]
    | pointer => exact absurd hop.symm spelled.op_ne_pointer
    | value _ filled => cases filled <;> simp [Opcode.isType] at hty'
    | var => simp [declaration, Opcode.isType] at hty'
  | pointer known =>
    cases hj with
    | type spelled' => exact absurd hop spelled'.op_ne_pointer
    | pointer known' =>
      simp only [List.drop_succ_cons, List.drop_zero, List.cons.injEq, and_true] at hoperands
      obtain ⟨hclass, rfl⟩ := hoperands
      rw [class_of_number hclass, Key.type.inj (h.unique (.type _) (.type _) _ known known')]
    | value _ filled => cases filled <;> simp at hop
    | var => simp [declaration] at hop
  | value _ filled => cases filled <;> simp [Opcode.isType] at hty
  | var => simp [declaration, Opcode.isType] at hty

theorem Meaning.not_ahead (h : b.Meaning xs k id i) : i.op.refersAhead = false := by
  by_contra hahead
  have hresult := result?_of_refersAhead ((Bool.not_eq_false _).mp hahead)
  simp [h.result] at hresult

/-- The id of one of the instructions is not that of the others. -/
theorem not_mem_results {front behind : List Instruction} (hr : i.result? = some id)
    (once : (results (front ++ i :: behind)).Nodup) : id ∉ results (front ++ behind) := by
  have hresults : results (front ++ i :: behind) = results front ++ id :: results behind := by
    rw [results_append, ← List.singleton_append, results_append, results_singleton, hr]
    rfl
  rw [hresults] at once
  rw [results_append]
  exact (List.nodup_cons.mp (List.nodup_middle.mp once)).1

namespace Interned

theorem results_nodup (h : b.Interned xs taken) : (results (b.define ++ b.declare)).Nodup := by
  rw [results_append]
  exact h.once.of_append_right.of_append_left

theorem definedOnce (h : b.Interned xs taken) (hid : b.find k = some id) :
    b.DefinedOnce xs k id ∨ b.IsParameter xs k id := by
  have honce := h.results_nodup
  obtain ⟨i, hi, hmeaning⟩ | ⟨-, ⟨i, hi, hmeaning⟩ | hparameter⟩ := h.found k id hid
  · obtain ⟨front, behind, hdefine⟩ := List.append_of_mem hi
    have hsplit : b.define ++ b.declare = front ++ i :: (behind ++ b.declare) := by
      rw [hdefine, List.append_assoc, List.cons_append]
    refine .inl ⟨front, i, behind ++ b.declare, hsplit, hmeaning,
      not_mem_results hmeaning.result (hsplit ▸ honce), fun u hu => ?_⟩
    have hordered := h.ordered
    rw [hdefine] at hordered
    simpa using hordered.earlier hmeaning.not_ahead u hu
  · obtain ⟨front, behind, hdeclare⟩ := List.append_of_mem hi
    have hsplit : b.define ++ b.declare = (b.define ++ front) ++ i :: behind := by
      rw [hdeclare, List.append_assoc]
    refine .inl ⟨b.define ++ front, i, behind, hsplit, hmeaning,
      not_mem_results hmeaning.result (hsplit ▸ honce), fun u hu => ?_⟩
    obtain ⟨k', hk', hu⟩ := hmeaning.uses hu
    rw [results_append]
    exact List.mem_append_left _ (h.mem_define hk' hu)
  · exact .inr hparameter

theorem apart (h : b.Interned xs taken) : b.define.Pairwise fun i j => i.op.isType →
    i.op ≠ .typeStruct → j.op = i.op → j.operands.drop 1 ≠ i.operands.drop 1 := by
  have hnodup : (results b.define).Nodup := by
    have hall := h.results_nodup
    rw [results_append] at hall
    exact hall.of_append_left
  refine (List.pairwise_filterMap.mp hnodup).imp_of_mem
    fun {i j} hi hj hne hty plain hop hoperands => ?_
  obtain ⟨k, id, hid, hmeaning⟩ := h.defined i (List.mem_append_left _ hi)
  obtain ⟨k', id', hid', hmeaning'⟩ := h.defined j (List.mem_append_left _ hj)
  obtain rfl := hmeaning.key_unique h hmeaning' hty plain hop hoperands
  exact hne id hmeaning.result id' hmeaning'.result (Option.some.inj (hid.symm.trans hid'))

end Interned

end Builder

namespace Request

open Builder Build

/-- A request takes steps of building, and its key has the id that it returns. -/
theorem run_takes {xs : List Variable} (r : Request) (hr : ∀ x, r.var? = some x → x ∈ xs)
    (b : Builder) : r.run.Takes (Step xs fun _ => True) b fun id b' =>
      ∀ k, r.key? = some k → b'.find k = some id := by
  have hkey {id : Id} {b' : Builder} {key : Key} (h : b'.find key = some id) (k : Key)
      (hk : some key = some k) : b'.find k = some id := Option.some.inj hk ▸ h
  cases r with
  | type ty =>
    exact ((typeId_defines b ty).weaken fun _ _ => .define).mono fun _ _ _ h => hkey h.1
  | pointer ty storage =>
    exact ((pointerTypeId_takes b ty storage).weaken fun _ _ => .define).mono fun _ _ _ h => hkey h
  | value v => exact (valueId_steps b v).mono fun _ _ _ h => hkey h
  | var x => exact (variableId_takes b (hr x rfl)).mono fun _ _ _ h => hkey h
  | splat id ty =>
    exact ((splat_has id ty : Has _ (stepping fun _ _ => trivial)) b).mono
      fun _ _ _ _ => by simp [key?]
  | convert id source target =>
    exact ((convert_has id source target : Has _ (stepping fun _ _ => trivial)) b).mono
      fun _ _ _ _ => by simp [key?]
  | code op ty operands =>
    exact (emit_takes trivial b ty operands).mono fun _ _ _ _ => by simp [key?]
  | extended ty number arguments =>
    exact (emitExtended_takes b ty number arguments).mono fun _ _ _ _ => by simp [key?]

theorem mapM_run_takes (requests : List Request) (b : Builder) :
    (requests.mapM run).Takes (Step (requests.filterMap (·.var?)) fun _ => True) b fun ids b' =>
      List.Forall₂ (fun r id => ∀ k, r.key? = some k → b'.find k = some id) requests ids := by
  refine Takes.mapM
    (P := fun (r : Request) id b' => ∀ k, r.key? = some k → b'.find k = some id) ?_ ?_
  · intro r id b₁ b₂ path h k hk
    exact Keeps.of_steps (fun _ _ => Step.keeps) path k id (h k hk)
  · intro r hr b₁ _
    exact run_takes r (fun x hx => List.mem_filterMap.mpr ⟨r, hr, hx⟩) b₁

/-- Interning is sound for every order of requests: the ids that they return tell types, pointer
    types, constants and variables apart, and each of these is defined once, behind what it is made
    of. Requests that meet a limit return no ids. -/
theorem interning {requests : List Request} {ids : List Id} {options : Options} {b : Builder}
    (h : requests.mapM run (.new options) = .ok (ids, b)) : b.Interning requests ids := by
  obtain ⟨path, hanswers⟩ := mapM_run_takes requests (.new options) ids b h
  have hinterned := (Interned.new _ options).run path
  have hfind : ∀ p ∈ requests.zip ids, ∀ k, p.1.key? = some k → b.find k = some p.2 := by
    rintro ⟨r, id⟩ hp
    exact (List.forall₂_iff_zip.mp hanswers).2 hp
  refine ⟨hanswers.length_eq.symm, fun p hp q hq k k' hk hk' => ⟨fun heq => ?_, ?_⟩,
    fun p hp k hk => hinterned.definedOnce (hfind p hp k hk), hinterned.defined, hinterned.apart⟩
  · exact hinterned.unique k k' p.2 (hfind p hp k hk) (heq ▸ hfind q hq k' hk')
  · rintro rfl
    exact Option.some.inj ((hfind p hp k hk).symm.trans (hfind q hq k hk'))

/-- Pointer types for a parameter and for a variable of the body, and a type and a constant in
    between. -/
def functionPointers : List Request :=
  [pointer (.vector .int .two) .parameter, type (.scalar .int), value (.zero (.vector .int .two)),
    pointer (.vector .int .two) .body, splat 4 (.vector .int .two)]

/-- Both pointer types are one, and the component type was defined before it was asked for. -/
theorem interning_functionPointers :
    ∃ b, functionPointers.mapM run (.new {}) = .ok ([3, 1, 5, 3, 6], b) ∧
      b.Interning functionPointers [3, 1, 5, 3, 6] := by
  have hids : (functionPointers.mapM run (.new {})).toOption.map (·.1) = some [3, 1, 5, 3, 6] := by
    decide +kernel
  cases hrun : functionPointers.mapM run (.new {}) with
  | error cause => simp [hrun, Except.toOption] at hids
  | ok result =>
    obtain ⟨ids, b⟩ := result
    rw [hrun] at hids
    obtain rfl : ids = [3, 1, 5, 3, 6] := Option.some.inj hids
    exact ⟨b, rfl, interning hrun⟩

end Request

end ShaderExpr
