import ShaderExpr.Proofs.Collections
import ShaderExpr.Proofs.Value.Canonical

namespace ShaderExpr

namespace Value

variable {v w : Value} {ty : Ty} {s : ScalarType} {i j : Nat} {c : Scalar} {cs : List Scalar}

/-- There are bytes at a place just if there is a component. -/
theorem place_le_length_iff (hs : v.ty.component? = some s) :
    (i + 1) * s.size ≤ v.data.length ↔ i < v.ty.componentCount := by
  have hpos : 0 < s.size := by cases s <;> decide
  rw [v.size_eq, size_of_component? hs, Nat.mul_comm s.size]
  exact Nat.mul_le_mul_right_iff hpos

/-- A component is stored just if there is one at its place. Its bytes take the place of those that
    stand there, and all others stay. -/
theorem set?_eq_some_iff (hs : v.ty.component? = some s) : v.set? i c = some w ↔
    i < v.ty.componentCount ∧ w.ty = v.ty ∧ w.data =
      v.data.take (i * s.size) ++ (c.convert s).bytes ++ v.data.drop ((i + 1) * s.size) := by
  rw [set?, hs, Option.bind_some]
  constructor
  · intro h
    split at h
    · rename_i hi
      exact ⟨(place_le_length_iff hs).mp hi, ty_of_ofBytes? h, data_of_ofBytes? h⟩
    · simp at h
  · rintro ⟨hi, hty, hdata⟩
    rw [if_pos ((place_le_length_iff hs).mpr hi), ← hdata, ← hty]
    exact dif_pos w.size_eq

theorem set?_total (hs : v.ty.component? = some s) (hi : i < v.ty.componentCount) (c : Scalar) :
    ∃ w, v.set? i c = some w := by
  have hle := (place_le_length_iff hs).mpr hi
  have hsize : (v.data.take (i * s.size) ++ (c.convert s).bytes ++
      v.data.drop ((i + 1) * s.size)).length = v.ty.size := by
    rw [Nat.add_one_mul] at hle ⊢
    rw [List.length_append, List.length_append, List.length_take_of_le (by omega),
      c.length_bytes_convert, List.length_drop, ← v.size_eq]
    omega
  obtain ⟨w, -, hty, hdata⟩ := ofBytes?_total hsize
  exact ⟨w, (set?_eq_some_iff hs).mpr ⟨hi, hty, hdata⟩⟩

/-- What a stored component stands between is as it was, and the component itself is stored in the
    component type of the value. -/
theorem around_set? (hs : v.ty.component? = some s) (h : v.set? i c = some w) :
    w.data.take (i * s.size) = v.data.take (i * s.size) ∧
      (w.data.drop (i * s.size)).take s.size = (c.convert s).bytes ∧
      w.data.drop ((i + 1) * s.size) = v.data.drop ((i + 1) * s.size) := by
  obtain ⟨hi, -, hdata⟩ := (set?_eq_some_iff hs).mp h
  have hle := (place_le_length_iff hs).mpr hi
  rw [Nat.add_one_mul] at hle
  rw [hdata]
  exact List.around_block (List.length_take_of_le (by omega)) (c.length_bytes_convert s)

theorem get?_set?_self (hs : v.ty.component? = some s) (h : v.set? i c = some w) :
    w.get? i = some (c.convert s) := by
  obtain ⟨-, hty, -⟩ := (set?_eq_some_iff hs).mp h
  obtain ⟨-, hblock, -⟩ := around_set? hs h
  have hread := Scalar.ofBytes?_bytes (c.convert s)
  rw [Scalar.type_convert] at hread
  rw [get?, hty, hs, Option.bind_some, hblock, hread]

theorem get?_set?_ne (hs : v.ty.component? = some s) (h : v.set? i c = some w) (hne : j ≠ i) :
    w.get? j = v.get? j := by
  obtain ⟨hi, hty, hdata⟩ := (set?_eq_some_iff hs).mp h
  rw [get?, get?, hty, hs, Option.bind_some, Option.bind_some, hdata,
    List.take_drop_replace (c.length_bytes_convert s) ((place_le_length_iff hs).mpr hi) hne]

/-- Nothing is left of what was stored at the same place before. -/
theorem set?_set? (hs : v.ty.component? = some s) (h : v.set? i c = some w) (d : Scalar) :
    w.set? i d = v.set? i d := by
  obtain ⟨hi, hty, -⟩ := (set?_eq_some_iff hs).mp h
  obtain ⟨hfront, -, hbehind⟩ := around_set? hs h
  obtain ⟨u, hu⟩ := set?_total hs hi d
  rw [hu, set?_eq_some_iff (hty ▸ hs), hfront, hbehind, hty]
  exact (set?_eq_some_iff hs).mp hu

/-- Stores components one after the other, from a position on. -/
def store? : Value → Nat → List Scalar → Option Value
  | v, _, [] => some v
  | v, i, c :: cs => (v.set? i c).bind fun w => w.store? (i + 1) cs

/-- Components are stored just if there are places for all of them. Their bytes take the places of
    those that stand there, and all others stay. -/
theorem store?_eq_some_iff (hs : v.ty.component? = some s) (hi : i ≤ v.ty.componentCount) :
    v.store? i cs = some w ↔ i + cs.length ≤ v.ty.componentCount ∧ w.ty = v.ty ∧
      w.data = v.data.take (i * s.size) ++ cs.flatMap (fun c => (c.convert s).bytes) ++
        v.data.drop ((i + cs.length) * s.size) := by
  induction cs generalizing v i with
  | nil =>
    simp only [store?, Option.some.injEq, List.length_nil, Nat.add_zero, List.flatMap_nil,
      List.append_nil, List.take_append_drop, hi, true_and]
    exact ⟨fun h => h ▸ ⟨rfl, rfl⟩, fun h => (eq_of_data h.1 h.2).symm⟩
  | cons c cs ih =>
    rw [store?, List.length_cons]
    rcases Nat.lt_or_ge i v.ty.componentCount with hlt | hge
    · obtain ⟨u, hu⟩ := set?_total hs hlt c
      obtain ⟨-, hty, -⟩ := (set?_eq_some_iff hs).mp hu
      obtain ⟨hfront, hblock, hbehind⟩ := around_set? hs hu
      have hdone : u.data.take ((i + 1) * s.size) =
          v.data.take (i * s.size) ++ (c.convert s).bytes := by
        rw [Nat.add_one_mul, List.take_add, hfront, hblock]
      have hrest : u.data.drop ((i + 1 + cs.length) * s.size) =
          v.data.drop ((i + 1 + cs.length) * s.size) := by
        rw [Nat.add_mul (i + 1), ← List.drop_drop, hbehind, List.drop_drop]
      rw [hu, Option.bind_some, ih (hty ▸ hs) (hty ▸ hlt), hty, hdone, hrest, List.flatMap_cons,
        List.append_assoc (v.data.take _), Nat.add_right_comm, Nat.add_assoc i]
    · have hnone : v.set? i c = none := Option.eq_none_iff_forall_ne_some.mpr fun u hu =>
        absurd ((set?_eq_some_iff hs).mp hu).1 (by omega)
      rw [hnone, Option.bind_none]
      exact ⟨nofun, fun h => absurd h.1 (by omega)⟩

/-- Components make a value just if the type has a place for each, and zeros follow them. -/
theorem ofComponents?_eq_some_iff (hs : ty.component? = some s) : ofComponents? ty cs = some w ↔
    cs.length ≤ ty.componentCount ∧ w.ty = ty ∧
      w.data = (cs.map (fun c => c.convert s) ++
        List.replicate (ty.componentCount - cs.length) (Scalar.zero s)).flatMap Scalar.bytes := by
  unfold ofComponents?
  split
  · rename_i hle
    have hdata := data_ofComponents hs cs
    rw [List.take_of_length_le hle] at hdata
    rw [Option.some.injEq, ← hdata]
    refine ⟨fun h => h ▸ ⟨hle, ofComponents_ty ty cs, rfl⟩, fun ⟨_, hty, hsame⟩ => ?_⟩
    exact eq_of_data ((ofComponents_ty ty cs).trans hty.symm) hsame.symm
  · rename_i hgt
    exact ⟨nofun, fun h => absurd h.1 hgt⟩

theorem components_ofComponents? (hs : ty.component? = some s)
    (h : ofComponents? ty cs = some w) : w.components = cs.map (fun c => c.convert s) ++
      List.replicate (ty.componentCount - cs.length) (Scalar.zero s) := by
  obtain ⟨hle, rfl, hdata⟩ := (ofComponents?_eq_some_iff hs).mp h
  refine components_of_data hs ?_ (fun x hx => ?_) hdata
  · rw [List.length_append, List.length_map, List.length_replicate, Nat.add_sub_of_le hle]
  · rcases List.mem_append.mp hx with hx | hx
    · obtain ⟨c, -, rfl⟩ := List.mem_map.mp hx
      exact Scalar.type_convert c s
    · rw [List.eq_of_mem_replicate hx, Scalar.zero, Scalar.type_convert]

/-- A value that is made of components is the one that they are stored in, in place of zeros. -/
theorem store?_zero (hs : ty.component? = some s) (cs : List Scalar) :
    (zero ty).store? 0 cs = ofComponents? ty cs := by
  have hzeros : (zero ty).data.drop ((0 + cs.length) * s.size) =
      (List.replicate (ty.componentCount - cs.length) (Scalar.zero s)).flatMap Scalar.bytes := by
    rw [zero, List.drop_replicate, size_of_component? hs, Nat.zero_add, Nat.mul_comm s.size,
      ← Nat.sub_mul, List.flatMap_replicate, Scalar.bytes_zero, List.flatten_replicate_replicate]
  refine Option.ext fun w => ?_
  rw [ofComponents?_eq_some_iff hs, store?_eq_some_iff (v := zero ty) hs (Nat.zero_le _), hzeros,
    List.flatMap_append, List.flatMap_map, Nat.zero_mul, List.take_zero, List.nil_append,
    Nat.zero_add]
  rfl

/-- Components are a lawful store, whatever scalar, vector or matrix they are in. Each of them can
    be read and stored; what is read at a place is what was stored there last, converted to the
    component type, and nothing changes at other places. As many components as a type has places
    for, or fewer, make a value that has them, converted, and zeros behind them, and it is the value
    that they are stored in one after the other. Types without a component type, such as structs,
    have no such places, hence `hs`. -/
theorem access_lawful {ty : Ty} {s : ScalarType} (hs : ty.component? = some s) :
    (∀ v : Value, v.ty = ty → ∀ i < ty.componentCount, ∃ x, v.get? i = some x ∧ x.type = s) ∧
    (∀ v : Value, v.ty = ty → ∀ i < ty.componentCount, ∀ c : Scalar, ∃ w, v.set? i c = some w ∧
      w.ty = ty ∧ w.data.length = ty.size ∧ w.get? i = some (c.convert s) ∧
      (∀ j ≠ i, w.get? j = v.get? j) ∧ ∀ d, w.set? i d = v.set? i d) ∧
    (∀ cs : List Scalar, cs.length ≤ ty.componentCount → ∃ w, ofComponents? ty cs = some w ∧
      w.ty = ty ∧ w.data.length = ty.size ∧ w.components = cs.map (fun c => c.convert s) ++
        List.replicate (ty.componentCount - cs.length) (Scalar.zero s)) ∧
    ∀ cs : List Scalar, (zero ty).store? 0 cs = ofComponents? ty cs := by
  refine ⟨?_, ?_, fun cs hle => ?_, store?_zero hs⟩
  · rintro v rfl i hi
    exact v.get?_total hs hi
  · rintro v rfl i hi c
    obtain ⟨w, hw⟩ := set?_total hs hi c
    obtain ⟨-, hty, -⟩ := (set?_eq_some_iff hs).mp hw
    exact ⟨w, hw, hty, w.size_eq.trans (congrArg Ty.size hty), get?_set?_self hs hw,
      fun j hne => get?_set?_ne hs hw hne, set?_set? hs hw⟩
  · obtain ⟨w, hw⟩ : ∃ w, ofComponents? ty cs = some w := ⟨_, if_pos hle⟩
    obtain ⟨-, hty, -⟩ := (ofComponents?_eq_some_iff hs).mp hw
    exact ⟨w, hw, hty, w.size_eq.trans (congrArg Ty.size hty), components_ofComponents? hs hw⟩

/-- A truth value is stored in a vector of doubles, of which one is no number and keeps its
    pattern. A truth value whose word is neither zero nor one stays one when its neighbour is
    stored. -/
theorem access_lawful_patterns :
    let doubles := Ty.vector .double .three
    let nan : Scalar := .double ⟨0x7ff4000000000001⟩
    let v := ofComponents doubles [.int 1, nan]
    let flags : Value := ⟨.vector .bool .two, [0, 0, 0, 0, 0, 0, 2, 0], rfl⟩
    (∃ w, v.set? 0 (.bool true) = some w ∧ w.data.length = 24 ∧
      w.get? 0 = some (.double ⟨0x3ff0000000000000⟩) ∧ w.get? 1 = some nan) ∧
    (∃ w, flags.set? 0 (.float ⟨0x3f000000⟩) = some w ∧ w.get? 0 = some (.bool true) ∧
      w.get? 1 = some (.bool true)) ∧
    ∃ w, ofComponents? doubles [.uint 7, nan] = some w ∧
      w.components = [.double ⟨0x401c000000000000⟩, nan, .double ⟨0⟩] := by
  intro doubles nan v flags
  have hdoubles : doubles.component? = some .double := rfl
  have hflags : flags.ty.component? = some .bool := rfl
  obtain ⟨-, hset, hmade, -⟩ := access_lawful hdoubles
  obtain ⟨w, hw, -, hlength, hself, hothers, -⟩ :=
    hset v (ofComponents_ty _ _) 0 (by decide) (.bool true)
  obtain ⟨-, hset', -, -⟩ := access_lawful hflags
  obtain ⟨u, hu, -, -, hself', hothers', -⟩ := hset' flags rfl 0 (by decide) (.float ⟨0x3f000000⟩)
  obtain ⟨made, hmade, -, -, hcomponents⟩ := hmade [.uint 7, nan] (by decide)
  refine ⟨⟨w, hw, hlength, hself, ?_⟩, ⟨u, hu, hself', ?_⟩, made, hmade, hcomponents⟩
  · rw [hothers 1 (by decide)]
    decide +kernel
  · rw [hothers' 1 (by decide)]
    decide +kernel

end Value

end ShaderExpr
