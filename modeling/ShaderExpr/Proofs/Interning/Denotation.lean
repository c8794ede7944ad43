import Mathlib.Data.List.Induction
import ShaderExpr.Proofs.Collections
import ShaderExpr.Proofs.Faults.Room
import ShaderExpr.Proofs.Interning.Requests
import ShaderExpr.Proofs.Running.Front

namespace ShaderExpr

open Relation

namespace Instruction

/-- The type that an instruction defines out of known ones, without the names that only debuggers
    see. -/
def typeOf? (known : Id → Option Ty) (i : Instruction) : Option Ty :=
  match i.op, i.operands with
  | .typeVoid, [_] => some .void
  | .typeBool, [_] => some (.scalar .bool)
  | .typeFloat, [_, 32] => some (.scalar .float)
  | .typeFloat, [_, 64] => some (.scalar .double)
  | .typeInt, [_, 32, 1] => some (.scalar .int)
  | .typeInt, [_, 32, 0] => some (.scalar .uint)
  | .typeVector, [_, component, n] => do
    match ← known component, Dim.ofNat? n.toNat with
    | .scalar s, some n => some (.vector s n)
    | _, _ => none
  | .typeMatrix, [_, column, n] => do
    match ← known column, Dim.ofNat? n.toNat with
    | .vector s rows, some columns => some (.matrix s columns rows)
    | _, _ => none
  | .typeStruct, _ :: members =>
    (members.mapM known).map fun ts => .struct none (ts.map ("", ·))
  | _, _ => none

/-- Ids of the types that an instruction makes a type of, part by part. -/
def partTypesOf (i : Instruction) : List Id :=
  match i.op, i.operands with
  | .typeVector, [_, part, n] | .typeMatrix, [_, part, n] => List.replicate n.toNat part
  | .typeStruct, _ :: members => members
  | _, _ => []

/-- The constant that an instruction defines, with the id of its type. The parts of a composite have
    the types that its type asks for. -/
def constantOf? (type? : Id → Option Ty) (partTypes : Id → List Id)
    (known : Id → Option (Id × Datum)) (i : Instruction) : Option (Id × Datum) :=
  match i.op, i.operands with
  | .constantTrue, [type, _] =>
    if type? type = some (.scalar .bool) then some (type, .scalar (.bool true)) else none
  | .constantFalse, [type, _] =>
    if type? type = some (.scalar .bool) then some (type, .scalar (.bool false)) else none
  | .constant, type :: _ :: words => do
    match ← type? type with
    | .scalar s => (Scalar.ofWords? s words).map fun x => (type, .scalar x)
    | _ => none
  | .constantComposite, type :: _ :: parts => do
    let parts ← parts.mapM known
    if parts.map (·.1) = partTypes type then some (type, .composite (parts.map (·.2))) else none
  | _, _ => none

/-- The type that an id stands for. -/
def typeAt? : List Instruction → Id → Option Ty
  | [], _ => none
  | i :: earlier, id =>
    if i.result? = some id then i.typeOf? (typeAt? earlier) else typeAt? earlier id

/-- Ids of the types that parts of a composite of a type have. -/
def partTypesAt : List Instruction → Id → List Id
  | [], _ => []
  | i :: earlier, id => if i.result? = some id then i.partTypesOf else partTypesAt earlier id

/-- The constant that an id stands for, with the id of its type. The reader follows ids from one
    definition to those in front of it, down to single components. -/
def constantAt? : List Instruction → Id → Option (Id × Datum)
  | [], _ => none
  | i :: earlier, id =>
    if i.result? = some id then
      i.constantOf? (typeAt? earlier) (partTypesAt earlier) (constantAt? earlier)
    else constantAt? earlier id

end Instruction

namespace Value

/-- The parts of a value: members of a struct, columns of a matrix or components of a vector. -/
def parts? (v : Value) : List (Option Value) :=
  if v.ty.isStruct then (List.range v.ty.members.length).map v.member?
  else (List.range v.ty.length).map v.element?

/-- A datum has the components of a value, part by part and in their order. -/
inductive Shows : Value → Datum → Prop
  | component {v : Value} {x : Scalar} (single : v.ty.isScalar) (read : v.get? 0 = some x) :
    Shows v (.scalar x)
  | composite {v : Value} {vs : List Value} {ds : List Datum} (whole : v.ty.isScalar = false)
    (parts : v.parts? = vs.map some) (each : List.Forall₂ Shows vs ds) : Shows v (.composite ds)

end Value

namespace Builder

open Instruction

/-- The definitions of a module say of an id that it is a constant of the type of a value, which is
    the interned one, and that it has the components of the value. -/
def IsConstant (b : Builder) (id : Id) (v : Value) : Prop :=
  ∃ type d, constantAt? b.define.reverse id = some (type, d) ∧
    typeAt? b.define.reverse type = some v.ty.bare ∧ Build.typeId v.ty b = .ok (type, b) ∧
    v.Shows d

/-- Modules under construction that a new one can become, where `xs` are the variables that are
    asked for: what is interned and emitted on the way, and in which order, does not matter. -/
inductive Reached (xs : List Variable) : Builder → Prop
  | new (options : Options) : Reached xs (.new options)
  | request {b b' : Builder} {r : Request} {id : Id} (before : Reached xs b)
    (known : ∀ x, r.var? = some x → x ∈ xs) (run : r.run b = .ok (id, b')) : Reached xs b'
  | fresh {b b' : Builder} {id : Id} (before : Reached xs b) (run : Build.fresh b = .ok (id, b')) :
    Reached xs b'
  | add {b b' : Builder} {s : Section} {op : Opcode} {operands : List UInt32} {u : Unit}
    (before : Reached xs b) (outside : s ≠ .define ∧ s ≠ .declare)
    (run : Build.add s op operands b = .ok (u, b')) : Reached xs b'

theorem map_fst_constantParts (ty : Ty) (data : List UInt8) :
    (ty.constantParts data).map (·.1) = ty.partTypes := by
  have hpieces (t : Ty) (size count : Nat) :
      ((pieces size count data).map fun part => (t, part)).map (·.1) = List.replicate count t := by
    rw [List.map_map, List.eq_replicate_iff]
    exact ⟨by simp, by simp⟩
  cases ty with
  | void | scalar => rfl
  | vector | matrix => exact hpieces _ _ _
  | struct name members =>
    rw [Ty.constantParts, Ty.partTypes]
    clear hpieces
    induction members generalizing data with
    | nil => rfl
    | cons m members ih => rw [memberPieces, List.map_cons, List.map_cons, ih]

variable {xs : List Variable} {taken : List Id} {b b' : Builder} {is : List Instruction}
  {id : Id} {op : Opcode} {operands : List UInt32}

/-- What a reader of definitions gets from the id of a key. -/
def Reads (b : Builder) (is : List Instruction) : Key → Id → Prop
  | .type ty, id => typeAt? is id = some ty.bare ∧ (ty.isScalar = false →
      List.Forall₂ (fun t part => b.types.lookup t = some part) ty.partTypes (partTypesAt is id))
  | .value ty data, id =>
    ∃ type, b.types.lookup ty = some type ∧ constantAt? is id = some (type, ty.datum data)
  | _, _ => True

theorem forall₂_ids {R : Ty → Id → Prop} {t : Ty} {part : Id} (h : R t part) (n : Dim) :
    List.Forall₂ R (List.replicate n.toNat t)
      (List.replicate (UInt32.ofNat n.toNat).toNat part) := by
  rw [Dim.toNat_ofNat]
  refine List.forall₂_replicate_iff.mpr ⟨List.length_replicate, fun u hu => ?_⟩
  exact List.eq_of_mem_replicate hu ▸ h

/-- A definition of a type is read behind those of the types that it is made of. Names of structs
    are lost in a module, so what is read is the bare type. -/
theorem Spells.reads {ty : Ty} (h : b.Spells ty op operands)
    (earlier : ∀ t u, b.types.lookup t = some u → u ∈ (⟨op, id :: operands⟩ : Instruction).uses →
      typeAt? is u = some t.bare) :
    typeOf? (typeAt? is) ⟨op, id :: operands⟩ = some ty.bare ∧ (ty.isScalar = false →
      List.Forall₂ (fun t part => b.types.lookup t = some part) ty.partTypes
        (partTypesOf ⟨op, id :: operands⟩)) := by
  cases h with
  | void | bool | float | double | int | uint => exact ⟨rfl, nofun⟩
  | @vector s n c component =>
    have hc : typeAt? is c = some (.scalar s) := earlier _ c component (by simp [Instruction.uses])
    refine ⟨?_, fun _ => forall₂_ids component n⟩
    simp only [typeOf?, hc, ofNat?_of_word]
    rfl
  | @matrix s columns rows c column =>
    have hc : typeAt? is c = some (.vector s rows) :=
      earlier _ c column (by simp [Instruction.uses])
    refine ⟨?_, fun _ => forall₂_ids column columns⟩
    simp only [typeOf?, hc, ofNat?_of_word]
    rfl
  | @struct name members _ made =>
    refine ⟨?_, fun _ => List.forall₂_map_left_iff.mpr made⟩
    have hall : operands.mapM (typeAt? is) = some (members.map fun m => m.2.bare) :=
      Option.mapM_eq_of_forall₂ (List.forall₂_mem_right made) fun m u hu => earlier m.2 u hu.2 hu.1
    change (operands.mapM (typeAt? is)).map _ = _
    rw [hall, Option.map_some, Ty.bare, Ty.bareMembers_eq]

/-- A definition of a constant is read behind its type and the constants that it is made of.
    `earlier` says that those are read already. -/
theorem Fills.reads {ty : Ty} {data : List UInt8} {type : Id} (h : b.Fills ty data op operands)
    (typed : b.types.lookup ty = some type)
    (earlier : ∀ k u, b.find k = some u →
      u ∈ (⟨op, type :: id :: operands⟩ : Instruction).uses → b.Reads is k u) :
    constantOf? (typeAt? is) (partTypesAt is) (constantAt? is) ⟨op, type :: id :: operands⟩ =
      some (type, ty.datum data) := by
  have htype : b.Reads is (.type ty) type := by
    refine earlier (.type ty) type typed ?_
    cases h <;> simp [Instruction.uses]
  cases h with
  | true read | false read =>
    obtain rfl := Scalar.type_of_ofBytes? read
    have hbool : typeAt? is type = some (.scalar .bool) := htype.1
    simp [constantOf?, hbool, Ty.datum, Ty.datum.scalarDatum, read]
  | @scalar s data x read number =>
    have hs : typeAt? is type = some (.scalar s) := htype.1
    have hwords : Scalar.ofWords? s x.words = some x := by
      rw [← Scalar.type_of_ofBytes? read]
      exact Scalar.ofWords?_words x
    simp [constantOf?, hs, hwords, Ty.datum, Ty.datum.scalarDatum, read]
  | composite whole made =>
    let typeId (t : Ty) : Id := (b.types.lookup t).getD 0
    have hread : operands.mapM (constantAt? is) =
        some ((ty.constantParts data).map fun part => (typeId part.1, part.1.datum part.2)) := by
      refine Option.mapM_eq_of_forall₂ (List.forall₂_mem_right made) fun part u hu => ?_
      obtain ⟨t, ht, hconstant⟩ := earlier (.value part.1 part.2) u hu.2
        (List.mem_cons_of_mem type hu.1)
      rw [hconstant, show typeId part.1 = t from congrArg (·.getD 0) ht]
    have htypes : partTypesAt is type = ty.partTypes.map typeId :=
      List.eq_map_of_forall₂ (htype.2 whole) fun t u hu => congrArg (·.getD 0) hu
    rw [← map_fst_constantParts ty data, List.map_map] at htypes
    simp only [constantOf?, hread, datum_eq_composite whole, htypes]
    simp

/-- Definitions up to any one of them are read back: each refers to those in front of it, which are
    told apart by their ids. -/
theorem Interned.reads (h : b.Interned xs taken) (is : List Instruction) :
    is <+: b.define → ∀ k id, b.find k = some id → id ∈ results is → b.Reads is.reverse k id := by
  induction is using List.reverseRecOn with
  | nil => simp
  | append_singleton is i ih =>
    rintro ⟨behind, hdefine⟩ k id hk hid
    rw [List.append_assoc, List.singleton_append] at hdefine
    have hmem : i ∈ b.define := by simp [← hdefine]
    obtain ⟨k', id', hk', hmeaning⟩ := h.defined i (List.mem_append_left _ hmem)
    have hearlier : ∀ k u, b.find k = some u → u ∈ i.uses → b.Reads is.reverse k u := by
      intro k u hu huse
      have hordered := h.ordered
      rw [← hdefine] at hordered
      exact ih ⟨i :: behind, hdefine⟩ k u hu
        (by simpa using hordered.earlier hmeaning.not_ahead u huse)
    rw [List.reverse_append, List.reverse_singleton, List.singleton_append]
    by_cases hr : i.result? = some id
    · obtain rfl : id' = id := Option.some.inj (hmeaning.result.symm.trans hr)
      obtain rfl := h.unique k k' id' hk hk'
      cases hmeaning with
      | type spelled =>
        have hread := spelled.reads fun t u ht hu => (hearlier (.type t) u ht hu).1
        simpa only [Reads, typeAt?, partTypesAt, if_pos hr] using hread
      | value known filled =>
        refine ⟨_, known, ?_⟩
        rw [constantAt?, if_pos hr]
        exact filled.reads known hearlier
      | pointer | var => trivial
    · have hother : id ∈ results is := by
        simpa [results_append, results_singleton, hr] using hid
      have hread := ih ⟨i :: behind, hdefine⟩ k id hk hother
      cases k with
      | type | value => simpa only [Reads, typeAt?, partTypesAt, constantAt?, if_neg hr] using hread
      | pointer | var => trivial

end Builder

theorem length_of_mem_pieces {size : Nat} : ∀ {count : Nat} {data piece : List UInt8},
    data.length = size * count → piece ∈ pieces size count data → piece.length = size
  | count + 1, data, piece, hlength, hpiece => by
    have hrest : size * (count + 1) = size * count + size := Nat.mul_succ size count
    rcases List.mem_cons.mp hpiece with rfl | hpiece
    · rw [List.length_take]
      omega
    · exact length_of_mem_pieces (by rw [List.length_drop]; omega) hpiece

/-- A part of a constant is smaller than it, fills its own type, and is complete. -/
def Ty.IsPart (part : Ty × List UInt8) (size : Nat) : Prop :=
  sizeOf part.1 < size ∧ part.2.length = part.1.size ∧ part.1.isComplete

theorem memberPieces_isPart : ∀ {members : List (String × Ty)} {data : List UInt8},
    Ty.membersSize members ≤ data.length → Ty.membersComplete members →
      ∀ part ∈ memberPieces members data, Ty.IsPart part (sizeOf members)
  | (name, t) :: members, data, hlength, complete, part, hpart => by
    obtain ⟨ht, hmembers⟩ := Bool.and_eq_true_iff.mp complete
    have hsize : Ty.membersSize ((name, t) :: members) = t.size + Ty.membersSize members := rfl
    rcases List.mem_cons.mp hpart with rfl | hpart
    · refine ⟨by simp; omega, ?_, ht⟩
      have hlength : t.size ≤ data.length := by omega
      rw [List.length_take, Nat.min_eq_left hlength]
    · obtain ⟨hsmall, hpart⟩ :=
        memberPieces_isPart (by rw [List.length_drop]; omega) hmembers part hpart
      exact ⟨by simp; omega, hpart⟩

theorem Ty.constantParts_isPart {ty : Ty} {data : List UInt8} (size : data.length = ty.size)
    (complete : ty.isComplete) : ∀ part ∈ ty.constantParts data, IsPart part (sizeOf ty) := by
  intro part hpart
  cases ty with
  | void | scalar => simp [constantParts] at hpart
  | vector s n =>
    obtain ⟨piece, hpiece, rfl⟩ := List.mem_map.mp hpart
    exact ⟨by cases n <;> simp, length_of_mem_pieces size hpiece, rfl⟩
  | matrix s columns rows =>
    obtain ⟨piece, hpiece, rfl⟩ := List.mem_map.mp hpart
    refine ⟨by cases columns <;> simp, length_of_mem_pieces ?_ hpiece, rfl⟩
    change data.length = s.size * rows.toNat * columns.toNat
    rw [size, Ty.size, Nat.mul_assoc, Nat.mul_comm rows.toNat]
  | struct name members =>
    obtain ⟨hsmall, hpart⟩ := memberPieces_isPart (Nat.le_of_eq size.symm) complete part hpart
    exact ⟨by simp; omega, hpart⟩

namespace Value

/-- The parts of a value are those that its constant is made of. -/
theorem parts?_eq {v : Value} (whole : v.ty.isScalar = false) :
    v.parts? = (v.ty.constantParts v.data).map fun part => ofBytes? part.1 part.2 := by
  unfold parts? element? member? Ty.memberOffset
  generalize v.data = data
  cases hty : v.ty with
  | void | scalar => simp [hty, Ty.isScalar] at whole
  | vector s n =>
    rw [Ty.constantParts, pieces_eq, List.map_map, List.map_map, if_neg (by simp [Ty.isStruct])]
    refine List.map_congr_left fun i hi => ?_
    have hi : i < n.toNat := List.mem_range.mp hi
    simp [Ty.element?, Ty.length, Ty.stride, hi]
  | matrix s columns rows =>
    rw [Ty.constantParts, pieces_eq, List.map_map, List.map_map, if_neg (by simp [Ty.isStruct])]
    refine List.map_congr_left fun i hi => ?_
    have hi : i < columns.toNat := List.mem_range.mp hi
    simp [Ty.element?, Ty.length, Ty.stride, hi]
  | struct name members =>
    rw [Ty.constantParts, if_pos (show (Ty.struct name members).isStruct from rfl)]
    refine List.ext_getElem? fun i => ?_
    rw [List.getElem?_map, List.getElem?_map, getElem?_memberPieces]
    by_cases hi : i < members.length
    · simp [Ty.members, hi]
    · simp [Ty.members, hi]

theorem shows_of_parts : ∀ {parts : List (Ty × List UInt8)},
    (∀ part ∈ parts, ∃ w, ofBytes? part.1 part.2 = some w ∧ w.Shows w.datum) →
      ∃ vs, parts.map (fun part => ofBytes? part.1 part.2) = vs.map some ∧
        List.Forall₂ Shows vs (parts.map fun part => part.1.datum part.2)
  | [], _ => ⟨[], rfl, .nil⟩
  | part :: parts, h => by
    obtain ⟨w, hw, hshows⟩ := h part List.mem_cons_self
    obtain ⟨vs, hvs, heach⟩ := shows_of_parts fun p hp => h p (List.mem_cons_of_mem part hp)
    rw [datum_of_ofBytes? hw] at hshows
    refine ⟨w :: vs, ?_, .cons hshows heach⟩
    rw [List.map_cons, List.map_cons, hw, hvs]

/-- The datum of a value has its components. -/
theorem shows_datum (v : Value) (complete : v.ty.isComplete) : v.Shows v.datum := by
  by_cases hscalar : v.ty.isScalar
  · cases hty : v.ty with
    | scalar s =>
      have hs : v.ty.component? = some s := by rw [hty]; rfl
      have hone : 0 < v.ty.componentCount := by rw [hty]; exact Nat.zero_lt_one
      rw [datum_eq_build (by rw [hty]; rfl), hty]
      exact .component hscalar (get?_eq_cell hs hone).1
    | void => simp [hty, Ty.isComplete] at complete
    | vector | matrix | struct => simp [hty, Ty.isScalar] at hscalar
  · have whole : v.ty.isScalar = false := Bool.eq_false_iff.mpr hscalar
    have hparts : ∀ part ∈ v.ty.constantParts v.data,
        ∃ w, ofBytes? part.1 part.2 = some w ∧ w.Shows w.datum := by
      intro part hpart
      obtain ⟨hsmall, hlength, hcomplete⟩ := Ty.constantParts_isPart v.size_eq complete part hpart
      obtain ⟨w, hw, hty, -⟩ := ofBytes?_total hlength
      exact ⟨w, hw, shows_datum w (hty ▸ hcomplete)⟩
    obtain ⟨vs, hvs, heach⟩ := shows_of_parts hparts
    rw [datum, Builder.datum_eq_composite whole]
    exact .composite whole ((parts?_eq whole).trans hvs) heach
termination_by sizeOf v.ty
decreasing_by rw [hty]; exact hsmall

end Value

theorem Build.typeId_of_known {b : Builder} {ty : Ty} {id : Id}
    (known : b.types.lookup ty = some id) : typeId ty b = .ok (id, b) := by
  have hintern (definition : Build Id) : internType ty definition b = .ok (id, b) := by
    unfold internType
    rw [get_bind_apply, known]
    rfl
  cases ty <;> exact hintern _

namespace Builder

variable {xs : List Variable} {b : Builder}

/-- Whatever was built before, tables and definitions belong together. -/
theorem Reached.interned (h : b.Reached xs) : b.Interned xs [] := by
  induction h with
  | new options => exact .new xs options
  | @request b b' r id _ known run ih => exact ih.run (r.run_takes known b id b' run).1
  | fresh _ run ih =>
    obtain ⟨-, rfl, ids⟩ := Build.fresh_eq_ok run
    exact (ih.reserve ids).forget
  | @add b b' s _ _ _ _ outside run ih =>
    obtain ⟨rfl, -⟩ := Build.add_eq_ok run
    cases s with
    | define | declare => simp at outside
    | header | debug | decorate | code => exact ih.same (fun _ => rfl) rfl rfl rfl rfl

/-- An id that is given for a value is the constant of its type with its components. -/
theorem Reached.isConstant {b' : Builder} {id : Id} (h : b.Reached xs) {v : Value}
    (complete : v.ty.isComplete) (run : Build.valueId v b = .ok (id, b')) : b'.IsConstant id v := by
  obtain ⟨path, hid⟩ : ReflTransGen (Step xs fun _ => True) b b' ∧
      b'.values.lookup (v.ty, v.data) = some id := Build.valueId_steps b v id b' run
  have hb' : b'.Interned xs [] := h.interned.run path
  have hread {k : Key} {id : Id} (hk : k.isVar = false) (hid : b'.find k = some id) :
      b'.Reads b'.define.reverse k id :=
    hb'.reads b'.define List.prefix_rfl k id hid (hb'.mem_define hk hid)
  obtain ⟨type, htype, hconstant⟩ := hread (k := .value v.ty v.data) rfl hid
  exact ⟨type, v.datum, hconstant, (hread (k := .type v.ty) rfl htype).1,
    Build.typeId_of_known htype, v.shows_datum complete⟩

/-- Where a module has room for a constant, it gives an id for it, which denotes it. -/
theorem Reached.exists_isConstant (h : b.Reached xs) {v : Value} (complete : v.ty.isComplete)
    (room : Build.HasRoom (Build.valueId v) b) :
    ∃ id b', Build.valueId v b = .ok (id, b') ∧ b'.IsConstant id v := by
  obtain ⟨id, b', hrun⟩ :=
    (Build.constantId_agrees v.ty v.data).exists_ok (Build.valueId_runs complete) room
  exact ⟨id, b', hrun, h.isConstant complete hrun⟩

/-- Whatever was built before, the id of a value is the constant of its type with its components: a
    reader that follows ids from one definition to those in front of it gets back the type and the
    components. Types without data, such as `void`, have no constants, so the type must be complete.
    The other branch is a module without room, and `exists_isConstant` rules it out where there is
    some. -/
theorem Reached.valueId_denotes (h : b.Reached xs) {v : Value} (complete : v.ty.isComplete) :
    (∃ id b', Build.valueId v b = .ok (id, b') ∧ b'.IsConstant id v) ∨
      ∃ cause, Build.valueId v b = .error cause ∧ cause.IsLimit := by
  cases hrun : Build.valueId v b with
  | error cause => exact .inr ⟨cause, rfl, Build.valueId_runs complete cause hrun⟩
  | ok result =>
    obtain ⟨id, b'⟩ := result
    exact .inl ⟨id, b', rfl, h.isConstant complete hrun⟩

/-- Code is built out of requests, ids and instructions without a result. -/
def reaching (xs : List Variable) : Build.Trait xs where
  holds r := ∀ b, b.Reached xs → ∀ a b', r b = .ok (a, b') → b'.Reached xs
  pure a b hb a' b' hrun := by
    obtain ⟨-, rfl⟩ := Prod.mk.inj (Except.ok.inj hrun)
    exact hb
  throw e b _ a b' hrun := by
    have hfault : (Except.error e : Except Fault _) = .ok (a, b') := hrun
    simp at hfault
  bind h hf b hb c b' hrun := by
    obtain ⟨a, b₁, ha, hc⟩ := Build.bind_eq_ok.mp hrun
    exact hf a b₁ (h b hb a b₁ ha) c b' hc
  folds h b hb := h b.options.foldConstants b hb
  emit ty operands _ b hb _ _ hrun :=
    hb.request (r := .code _ ty operands) (by simp [Request.var?]) hrun
  emitExtended ty number operands b hb _ _ hrun :=
    hb.request (r := .extended ty number operands) (by simp [Request.var?]) hrun
  valueId v b hb _ _ hrun := hb.request (r := .value v) (by simp [Request.var?]) hrun
  variableId x hx b hb _ _ hrun :=
    hb.request (r := .var x) (fun y hy => Option.some.inj hy ▸ hx) hrun
  access ty storage operands b hb a b' hrun := by
    obtain ⟨type, b₁, hpointer, hrun⟩ := Build.bind_eq_ok.mp hrun
    obtain ⟨id, b₂, hfresh, hrun⟩ := Build.bind_eq_ok.mp hrun
    obtain ⟨_, b₃, hadd, hrun⟩ := Build.bind_eq_ok.mp hrun
    obtain ⟨-, rfl⟩ := Prod.mk.inj (Except.ok.inj hrun)
    have hb₁ := hb.request (r := .pointer ty storage) (by simp [Request.var?]) hpointer
    exact (hb₁.fresh hfresh).add ⟨by simp, by simp⟩ hadd
  store operands b hb _ _ hrun := hb.add ⟨by simp, by simp⟩ hrun

/-- The state behind the code of a well-typed expression is reached as well, so constants can be asked
    for behind it. -/
theorem Reached.expr {b' : Builder} {id : Id} {e : Expr} (h : b.Reached xs) (typed : e.WellTyped xs)
    (run : Build.expr e b = .ok (id, b')) : b'.Reached xs :=
  Build.expr_has (T := reaching xs) typed b h id b' run

theorem Reached.requests {requests : List Request} {ids : List Id} {b' : Builder}
    (h : b.Reached xs) (known : ∀ r ∈ requests, ∀ x, r.var? = some x → x ∈ xs)
    (run : requests.mapM Request.run b = .ok (ids, b')) : b'.Reached xs := by
  induction requests generalizing b ids with
  | nil =>
    obtain ⟨-, rfl⟩ := Prod.mk.inj (Except.ok.inj run)
    exact h
  | cons r requests ih =>
    rw [List.mapM_cons] at run
    obtain ⟨id, b₁, hr, run⟩ := Build.bind_eq_ok.mp run
    obtain ⟨ids, b₂, hrest, run⟩ := Build.bind_eq_ok.mp run
    obtain ⟨-, rfl⟩ := Prod.mk.inj (Except.ok.inj run)
    exact ih (h.request (known r List.mem_cons_self) hr)
      (fun r hr => known r (List.mem_cons_of_mem _ hr)) hrest

/-- Two integers and a double. -/
def weighted : Value where
  ty := .struct none [("index", .vector .int .two), ("weight", .scalar .double)]
  data := [0, 0, 0, 0, 0, 0, 0, 0, 0, 0, 0, 0, 0, 0, 0xf0, 0x3f]
  size_eq := rfl

/-- The first member is the constant that was asked for before. -/
theorem valueId_denotes_weighted : ∃ b b',
    Request.functionPointers.mapM Request.run (.new {}) = .ok ([3, 1, 5, 3, 6], b) ∧
      Build.valueId weighted b = .ok (10, b') ∧ b'.IsConstant 10 weighted := by
  let script : Build (List Id × Id) := do
    let ids ← Request.functionPointers.mapM Request.run
    let id ← Build.valueId weighted
    return (ids, id)
  have hids : (script (.new {})).toOption.map (·.1) = some ([3, 1, 5, 3, 6], 10) := by
    decide +kernel
  cases hscript : script (.new {}) with
  | error cause => simp [hscript, Except.toOption] at hids
  | ok result =>
    obtain ⟨answers, b'⟩ := result
    obtain rfl : answers = ([3, 1, 5, 3, 6], 10) := by simpa [hscript, Except.toOption] using hids
    obtain ⟨ids, b, hrun, hvalue⟩ := Build.bind_eq_ok.mp hscript
    obtain ⟨id, b₁, hvalue, hpure⟩ := Build.bind_eq_ok.mp hvalue
    obtain ⟨hanswers, rfl⟩ := Prod.mk.inj (Except.ok.inj hpure)
    obtain ⟨rfl, rfl⟩ := Prod.mk.inj hanswers
    have hb : b.Reached [] := (Reached.new {}).requests (by decide) hrun
    obtain ⟨id', b₂, hvalue', hdenotes⟩ | ⟨cause, hfault, -⟩ :=
      hb.valueId_denotes (v := weighted) (by decide)
    · obtain ⟨rfl, rfl⟩ := Prod.mk.inj (Except.ok.inj (hvalue'.symm.trans hvalue))
      exact ⟨b, b₂, hrun, hvalue, hdenotes⟩
    · simp [hvalue] at hfault

end Builder

end ShaderExpr
