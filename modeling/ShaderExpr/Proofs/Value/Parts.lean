import ShaderExpr.Proofs.Interning.Denotation
import ShaderExpr.Proofs.Running.Cells
import ShaderExpr.Proofs.Value.Canonical

namespace ShaderExpr

theorem flatten_pieces {size : Nat} : ∀ {count : Nat} {data : List UInt8},
    data.length = size * count → (pieces size count data).flatten = data
  | 0, data, hlength => (List.length_eq_zero_iff.mp hlength).symm
  | count + 1, data, hlength => by
    have hrest : (data.drop size).length = size * count := by
      rw [List.length_drop, hlength, Nat.mul_succ, Nat.add_sub_cancel]
    rw [pieces, List.flatten_cons, flatten_pieces hrest, List.take_append_drop]

/-- Pieces of some bytes that fill their types, and are the bytes one behind the other. -/
structure Ty.Covers (parts : List (Ty × List UInt8)) (data : List UInt8) : Prop where
  fill : ∀ part ∈ parts, part.2.length = part.1.size
  join : parts.flatMap (·.2) = data

theorem covers_pieces {ty : Ty} {size count : Nat} {data : List UInt8} (hty : ty.size = size)
    (hlength : data.length = size * count) :
    Ty.Covers ((pieces size count data).map (ty, ·)) data where
  fill part hpart := by
    obtain ⟨piece, hpiece, rfl⟩ := List.mem_map.mp hpart
    rw [length_of_mem_pieces hlength hpiece, hty]
  join := by
    rw [List.flatMap_map]
    exact List.flatMap_id'.trans (flatten_pieces hlength)

theorem covers_memberPieces : ∀ {members : List (String × Ty)} {data : List UInt8},
    data.length = Ty.membersSize members → Ty.Covers (memberPieces members data) data
  | [], data, hlength => ⟨nofun, (List.length_eq_zero_iff.mp hlength).symm⟩
  | (name, ty) :: members, data, hlength => by
    have hsize : data.length = ty.size + Ty.membersSize members := hlength
    have hrest : (data.drop ty.size).length = Ty.membersSize members := by
      rw [List.length_drop, hsize, Nat.add_sub_cancel_left]
    obtain ⟨hfill, hjoin⟩ := covers_memberPieces hrest
    refine ⟨List.forall_mem_cons.mpr ⟨?_, hfill⟩, ?_⟩
    · rw [List.length_take, Nat.min_eq_left (by omega)]
    · rw [memberPieces, List.flatMap_cons, hjoin, List.take_append_drop]

/-- The constants that a constant is made of are all of it. -/
theorem Ty.covers_constantParts {ty : Ty} (whole : ty.isScalar = false) {data : List UInt8}
    (hlength : data.length = ty.size) : Covers (ty.constantParts data) data := by
  cases ty with
  | void | scalar => simp [isScalar] at whole
  | vector => exact covers_pieces rfl hlength
  | matrix s columns rows =>
    refine covers_pieces rfl (hlength.trans ?_)
    rw [size, Nat.mul_assoc, Nat.mul_comm rows.toNat]
  | struct => exact covers_memberPieces hlength

namespace Value

variable {v : Value}

/-- Pieces that fill their types are values. -/
theorem exists_values : ∀ {parts : List (Ty × List UInt8)},
    (∀ part ∈ parts, part.2.length = part.1.size) →
      ∃ vs : List Value, parts.map (fun part => ofBytes? part.1 part.2) = vs.map some ∧
        vs.map (·.ty) = parts.map (·.1) ∧ vs.flatMap (·.data) = parts.flatMap (·.2)
  | [], _ => ⟨[], rfl, rfl, rfl⟩
  | part :: parts, hfill => by
    obtain ⟨w, hw, hty, hdata⟩ := ofBytes?_total (hfill part List.mem_cons_self)
    obtain ⟨vs, hvs, htypes, hjoin⟩ :=
      exists_values fun p hp => hfill p (List.mem_cons_of_mem part hp)
    refine ⟨w :: vs, ?_, ?_, ?_⟩
    · rw [List.map_cons, List.map_cons, hw, hvs]
    · rw [List.map_cons, List.map_cons, hty, htypes]
    · rw [List.flatMap_cons, List.flatMap_cons, hdata, hjoin]

/-- A value has all of its parts, each of the type that its place has. -/
theorem exists_parts (whole : v.ty.isScalar = false) :
    ∃ parts : List Value, v.parts? = parts.map some ∧ parts.map (·.ty) = v.ty.partTypes ∧
      parts.flatMap (·.data) = v.data := by
  obtain ⟨hfill, hjoin⟩ := Ty.covers_constantParts whole v.size_eq
  obtain ⟨parts, hparts, htypes, hdata⟩ := exists_values hfill
  refine ⟨parts, (parts?_eq whole).trans hparts, ?_, hdata.trans hjoin⟩
  rw [htypes, Builder.map_fst_constantParts]

/-- Values of known types are told apart in the bytes that they are joined to. -/
theorem eq_of_flatMap_data : ∀ {vs ws : List Value}, vs.map (·.ty) = ws.map (·.ty) →
    vs.flatMap (·.data) = ws.flatMap (·.data) → vs = ws
  | [], [], _, _ => rfl
  | v :: vs, w :: ws, htypes, hdata => by
    obtain ⟨hty, htypes⟩ := List.cons.inj htypes
    have hlength : v.data.length = w.data.length := by
      rw [v.size_eq, w.size_eq]
      exact congrArg Ty.size hty
    obtain ⟨hfirst, hrest⟩ := List.append_inj hdata hlength
    rw [eq_of_data hty hfirst, eq_of_flatMap_data htypes hrest]

end Value

namespace Ty

variable {ty : Ty}

theorem isScalar_of_isStruct (struct : ty.isStruct) : ty.isScalar = false := by
  cases ty with
  | struct => rfl
  | void | scalar | vector | matrix => simp [isStruct] at struct

theorem partTypes_of_isStruct (struct : ty.isStruct) :
    ty.partTypes = (Function.constructor ty).parameters := by
  cases ty with
  | struct => rfl
  | void | scalar | vector | matrix => simp [isStruct] at struct

end Ty

namespace Value

variable {v : Value} {ty : Ty} {values : List Value}

/-- A struct of values of the types of its members has these as its parts. -/
theorem parts?_of_typed (struct : v.ty.isStruct)
    (typed : List.Forall₂ (fun x m => x.ty = m.2) values v.ty.members)
    (hdata : v.data = values.flatMap (·.data)) : v.parts? = values.map some := by
  obtain ⟨parts, hparts, htypes, hjoin⟩ := exists_parts (Ty.isScalar_of_isStruct struct)
  rw [Ty.partTypes_of_isStruct struct, ← Function.typed_iff.mp typed] at htypes
  rw [hparts, eq_of_flatMap_data htypes (hjoin.trans hdata)]

/-- A struct is made of its parts. -/
theorem ofMembers_parts (struct : v.ty.isStruct) {parts : List Value}
    (htypes : parts.map (·.ty) = v.ty.partTypes) (hjoin : parts.flatMap (·.data) = v.data) :
    ofMembers v.ty parts = .ok v := by
  rw [Ty.partTypes_of_isStruct struct] at htypes
  obtain ⟨w, hw, hty, hdata⟩ := ofMembers_total struct (Function.typed_iff.mpr htypes)
  rw [hw, eq_of_data hty (hdata.trans hjoin)]

/-- Values are converted to the types of the members at their places, those in excess are dropped,
    and what is left is all that a struct has. -/
theorem ofMembers_eq_ok (h : ofMembers ty values = .ok v) : ∃ converted,
    (values.zip ty.members).mapM (fun (x, _, t) => x.convert t) = .ok converted ∧
      v.ty = ty ∧ v.data = converted.flatMap (·.data) := by
  obtain ⟨converted, hconverted, hdata⟩ := Except.bind_eq_ok.mp h
  refine ⟨converted, hconverted, ty_of_ofMembers h, ?_⟩
  unfold ofData at hdata
  split at hdata
  · simp at hdata
  · split at hdata
    · rename_i w hw
      rw [← Except.ok.inj hdata, data_of_ofBytes? hw]
    · simp at hdata

/-- Each value is converted to the type of a member. -/
theorem typed_of_converted : ∀ {values converted : List Value} {members : List (String × Ty)},
    (values.zip members).mapM (fun (x, _, t) => x.convert t) = .ok converted →
      List.Forall₂ (fun w m => w.ty = m.2) converted (members.take values.length)
  | [], _, members, h => by
    rw [← Except.ok.inj h]
    exact .nil
  | _ :: _, _, [], h => by
    rw [← Except.ok.inj h]
    exact .nil
  | x :: values, _, (name, t) :: members, h => by
    rw [List.zip_cons_cons, List.mapM_cons] at h
    obtain ⟨w, hw, h⟩ := Except.bind_eq_ok.mp h
    obtain ⟨rest, hrest, h⟩ := Except.bind_eq_ok.mp h
    rw [← Except.ok.inj h]
    exact .cons (ty_of_convert hw) (typed_of_converted hrest)

/-- One value per member makes a struct that has them, converted, as its parts. -/
theorem parts?_of_ofMembers (struct : ty.isStruct) (count : values.length = ty.members.length)
    (h : ofMembers ty values = .ok v) : ∃ converted,
      (values.zip ty.members).mapM (fun (x, _, t) => x.convert t) = .ok converted ∧
        v.ty = ty ∧ v.parts? = converted.map some := by
  obtain ⟨converted, hconverted, hty, hdata⟩ := ofMembers_eq_ok h
  have typed := typed_of_converted hconverted
  rw [List.take_of_length_le (Nat.le_of_eq count.symm)] at typed
  subst hty
  exact ⟨converted, hconverted, rfl, parts?_of_typed struct typed hdata⟩

theorem member?_of_parts? (struct : v.ty.isStruct) {parts : List Value}
    (h : v.parts? = parts.map some) (i : Nat) : v.member? i = parts[i]? := by
  rw [parts?, if_pos struct] at h
  have hlength : v.ty.members.length = parts.length := by simpa using congrArg List.length h
  by_cases hi : i < parts.length
  · have hget := congrArg (·[i]?) h
    simpa [hi, hlength] using hget
  · have hnone : v.ty.members[i]? = none := List.getElem?_eq_none (by omega)
    rw [List.getElem?_eq_none (by omega), member?, hnone, Option.bind_none]

/-- Structs are taken apart and put together without loss. One value per member makes a struct whose
    members are these values, each converted to the type of its member. The members of a struct make
    the same struct again. And the parts of any struct, matrix or vector fill their types and are
    one behind the other, without gaps, all the bytes of it. -/
theorem parts_lossless :
    (∀ {ty : Ty} {values : List Value} {v : Value}, ty.isStruct →
      values.length = ty.members.length → ofMembers ty values = .ok v →
        v.ty = ty ∧ ∀ i x name t, values[i]? = some x → ty.members[i]? = some (name, t) →
          ∃ w, x.convert t = .ok w ∧ v.member? i = some w) ∧
    (∀ v : Value, v.ty.isStruct → ∃ members : List Value, members.length = v.ty.members.length ∧
      (∀ i, v.member? i = members[i]?) ∧ ofMembers v.ty members = .ok v) ∧
    (∀ v : Value, v.ty.isStruct ∨ v.ty.isMatrix ∨ v.ty.isVector → ∃ parts : List Value,
      v.parts? = parts.map some ∧ parts.map (·.ty) = v.ty.partTypes ∧
        (∀ p ∈ parts, p.data.length = p.ty.size) ∧ parts.flatMap (·.data) = v.data) := by
  refine ⟨fun struct count h => ?_, fun v struct => ?_, fun v whole => ?_⟩
  · obtain ⟨converted, hconverted, rfl, hparts⟩ := parts?_of_ofMembers struct count h
    refine ⟨rfl, fun i x name t hx hmember => ?_⟩
    have hzip : (List.zip _ _)[i]? = some (x, name, t) :=
      List.getElem?_zip_eq_some.mpr ⟨hx, hmember⟩
    obtain ⟨w, hw, hconvert⟩ := Except.getElem?_mapM hconverted hzip
    exact ⟨w, hconvert, (member?_of_parts? struct hparts i).trans hw⟩
  · obtain ⟨parts, hparts, htypes, hjoin⟩ := exists_parts (Ty.isScalar_of_isStruct struct)
    refine ⟨parts, ?_, member?_of_parts? struct hparts, ofMembers_parts struct htypes hjoin⟩
    rw [Ty.partTypes_of_isStruct struct] at htypes
    simpa [Function.parameters] using congrArg List.length htypes
  · have hscalar : v.ty.isScalar = false := by
      cases hty : v.ty with
      | vector | matrix | struct => rfl
      | void | scalar => simp [hty, Ty.isStruct, Ty.isMatrix, Ty.isVector] at whole
    obtain ⟨parts, hparts, htypes, hjoin⟩ := exists_parts hscalar
    exact ⟨parts, hparts, htypes, fun p _ => p.size_eq, hjoin⟩

/-- A struct in a struct, with members of no size, one of which is the last. -/
theorem parts_lossless_nested :
    let empty := Ty.struct (some "Empty") []
    let inner := Ty.struct (some "Inner") [("none", empty), ("pair", .vector .uint .two)]
    let outer := Ty.struct none [("inner", inner), ("count", .scalar .int), ("last", empty)]
    let i : Value := ⟨inner, [1, 0, 0, 0, 2, 0, 0, 0], rfl⟩
    let v : Value := ⟨outer, [1, 0, 0, 0, 2, 0, 0, 0, 3, 0, 0, 0], rfl⟩
    ofMembers outer [i, ofScalar (.uint 3), zero empty] = .ok v ∧ v.member? 0 = some i ∧
      v.member? 1 = some (ofScalar (.int 3)) ∧
      (∃ members : List Value, members.length = 3 ∧ (∀ k, v.member? k = members[k]?) ∧
        ofMembers outer members = .ok v) ∧
      ∃ parts : List Value, i.parts? = parts.map some ∧ parts.flatMap (·.data) = i.data := by
  intro empty inner outer i v
  obtain ⟨hmade, hagain, hparts⟩ := parts_lossless
  have hv : ofMembers outer [i, ofScalar (.uint 3), zero empty] = .ok v := rfl
  obtain ⟨-, hmembers⟩ := hmade rfl rfl hv
  obtain ⟨i', hi', hfirst⟩ := hmembers 0 i "inner" inner rfl rfl
  obtain ⟨w, hw, hsecond⟩ := hmembers 1 (ofScalar (.uint 3)) "count" (.scalar .int) rfl rfl
  obtain rfl : i = i' := Except.ok.inj hi'
  obtain rfl : ofScalar (.int 3) = w := Except.ok.inj hw
  obtain ⟨parts, hpieces, -, -, hjoin⟩ := hparts i (.inl rfl)
  exact ⟨hv, hfirst, hsecond, hagain v rfl, parts, hpieces, hjoin⟩

end Value

end ShaderExpr
