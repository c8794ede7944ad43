import ShaderExpr.Proofs.Collections
import ShaderExpr.Proofs.Running.Contents
import ShaderExpr.Proofs.Running.Folding

namespace ShaderExpr

/-- Elements at the given positions, one after the other. -/
def Picks {α : Type} (positions : List Nat) (whole part : List α) : Prop :=
  ∀ j k : Nat, positions[j]? = some k → part[j]? = whole[k]?

/-- Elements at the given positions are replaced by those of a part, one after the other. -/
structure Overwrites {α : Type} (positions : List Nat) (part old new : List α) : Prop where
  named : Picks positions new part
  others : ∀ k : Nat, k ∉ positions → new[k]? = old[k]?

section Positions

variable {α : Type} {positions : List Nat} {part part' old new new' : List α}

/-- Nothing is replaced by what stands there already. -/
theorem Overwrites.eq_of_picks (h : Overwrites positions part old new)
    (picks : Picks positions old part) : new = old := by
  refine List.ext_getElem? fun k => ?_
  by_cases hk : k ∈ positions
  · obtain ⟨j, hj⟩ := List.mem_iff_getElem?.mp hk
    rw [← h.named j k hj, picks j k hj]
  · exact h.others k hk

/-- What was replaced before does not matter. -/
theorem Overwrites.eq_of_overwrites {middle : List α} (h : Overwrites positions part old new)
    (first : Overwrites positions part' old middle)
    (second : Overwrites positions part middle new') : new' = new := by
  refine List.ext_getElem? fun k => ?_
  by_cases hk : k ∈ positions
  · obtain ⟨j, hj⟩ := List.mem_iff_getElem?.mp hk
    rw [← h.named j k hj, second.named j k hj]
  · rw [second.others k hk, first.others k hk, h.others k hk]

/-- What was written is read again. -/
theorem Overwrites.eq_of_length {read : List α} (h : Overwrites positions part old new)
    (picks : Picks positions new read) (length : part.length = positions.length)
    (length' : read.length = positions.length) : read = part := by
  refine List.ext_getElem? fun j => ?_
  by_cases hj : j < positions.length
  · have hposition := List.getElem?_eq_getElem hj
    rw [picks j _ hposition, h.named j _ hposition]
  · rw [List.getElem?_eq_none (by omega), List.getElem?_eq_none (by omega)]

/-- Positions inside a list that stands behind others. -/
theorem Picks.shift {whole before behind : List α} (h : Picks positions whole part)
    (inside : ∀ k ∈ positions, k < whole.length) :
    Picks (positions.map (before.length + ·)) (before ++ whole ++ behind) part := by
  intro j k hj
  rw [List.getElem?_map] at hj
  obtain ⟨i, hi, rfl⟩ := Option.map_eq_some_iff.mp hj
  have hlt := inside i (List.mem_of_getElem? hi)
  rw [h j i hi, List.append_assoc, List.getElem?_append_right (Nat.le_add_right _ _),
    Nat.add_sub_cancel_left, List.getElem?_append_left hlt]

theorem Overwrites.shift {before behind : List α} (h : Overwrites positions part old new)
    (inside : ∀ k ∈ positions, k < new.length) (length : new.length = old.length) :
    Overwrites (positions.map (before.length + ·)) part (before ++ old ++ behind)
      (before ++ new ++ behind) := by
  refine ⟨h.named.shift inside, fun k hk => ?_⟩
  rw [List.append_assoc, List.append_assoc]
  by_cases hbefore : k < before.length
  · rw [List.getElem?_append_left hbefore, List.getElem?_append_left hbefore]
  · have hle : before.length ≤ k := by omega
    rw [List.getElem?_append_right hle, List.getElem?_append_right hle]
    have hposition : k - before.length ∉ positions := fun hmem =>
      hk (List.mem_map.mpr ⟨_, hmem, by omega⟩)
    by_cases hmiddle : k - before.length < new.length
    · rw [List.getElem?_append_left hmiddle, List.getElem?_append_left (length ▸ hmiddle)]
      exact h.others _ hposition
    · rw [List.getElem?_append_right (by omega), List.getElem?_append_right (by omega), length]

end Positions

open Folding

/-- Components of a selection are those that it selects. -/
theorem Ty.Selects.cellCount_eq {whole : Ty} {indexes : List Nat} (h : whole.Selects indexes) :
    (∀ k ∈ indexes, k < whole.cellCount) ∧
      (Expr.swizzleType whole indexes.length).cellCount = indexes.length := by
  obtain ⟨s, -, hs, hcount⟩ := h.components
  refine ⟨fun k hk => ?_, ?_⟩
  · have hlt := h.inside k hk
    rcases h.shape with ⟨s, rfl⟩ | ⟨s, n, rfl⟩
    · exact hlt
    · cases n <;> simpa [Ty.length, Ty.cellCount, Dim.toNat] using hlt
  · rw [Ty.cellCount_eq_componentCount (Ty.isBasic_of_component? hs), hcount]

/-- A scalar has one component to select. -/
theorem Ty.Selects.eq_singleton {whole : Ty} {indexes : List Nat} {s : ScalarType}
    (h : whole.Selects indexes) (hty : whole = .scalar s) (distinct : indexes.Nodup) :
    indexes = [0] := by
  have hzero : ∀ i ∈ indexes, i = 0 := by
    intro i hi
    have hlt := h.inside i hi
    rw [hty] at hlt
    exact Nat.lt_one_iff.mp hlt
  have hreplicate := List.eq_replicate_of_mem hzero
  rw [hreplicate, List.nodup_replicate] at distinct
  have hpositive := List.length_pos_iff.mpr h.some
  rw [hreplicate, show indexes.length = 1 by omega]
  rfl

namespace Machine

variable {M : Machine} {s : ScalarType} {n : Dim} {v w : Value} {indexes : List Nat}

/-- A component after a store to selected ones. -/
def merged (indexes : List Nat) (v w : Value) (k : Nat) : Scalar :=
  match indexes.findIdx? (· = k) with
  | some j => w.cell j
  | none => v.cell k

theorem perform_compositeInsert {i : Nat} (hty : v.ty = .vector s n) (hi : i < n.toNat)
    (hwty : w.ty = .scalar s) :
    M.perform .compositeInsert v.ty [w.datum, v.datum] [UInt32.ofNat i] =
      v.ty.build (merged [i] v w) := by
  have hn := n.toNat_bounds
  rw [hty, datum_of_scalar hwty, Value.datum_eq_build_of_ty hty rfl]
  refine perform_eq rfl ?_
  have hlt : i < 4294967296 := by omega
  have hsmall : (UInt32.ofNat i).toNat = i := UInt32.toNat_ofNat_of_lt' hlt
  simp only [known?, List.map_cons, List.map_nil, hsmall, Ty.build, Datum.replace,
    Option.some.injEq, Datum.composite.injEq]
  refine List.ext_getElem? fun k => ?_
  rw [List.getElem?_modify, List.getElem?_map, List.getElem?_map]
  by_cases hk : k < n.toNat
  · rw [List.getElem?_range hk]
    by_cases hik : i = k
    · simp [merged, List.findIdx?_cons, hik]
    · simp [merged, List.findIdx?_cons, hik]
  · simp [hk]

theorem perform_vectorShuffle_merge (hty : v.ty = .vector s n) {m : Dim}
    (hwty : w.ty = .vector s m) (count : indexes.length = m.toNat) :
    M.perform .vectorShuffle v.ty [v.datum, w.datum]
      ((Build.mergeIndexes v.ty.length indexes).map UInt32.ofNat) =
        v.ty.build (merged indexes v w) := by
  have hn := n.toNat_bounds
  have hm := m.toNat_bounds
  have hlength : v.ty.length = n.toNat := by rw [hty]; rfl
  have hvcells : v.datum.cells = (List.range n.toNat).map v.cell := by
    rw [cells_datum (by rw [hty]; rfl), hty, Ty.componentCount]
  have hwcells : w.datum.cells = (List.range m.toNat).map w.cell := by
    rw [cells_datum (by rw [hwty]; rfl), hwty, Ty.componentCount]
  refine perform_eq (by rw [hty]; rfl) (Ty.fill?_eq_build fun k hk => ?_)
  have hk : k < n.toNat := by rwa [hty] at hk
  rw [List.getElem?_map, Build.mergeIndexes, List.getElem?_map, hlength, List.getElem?_range hk,
    Option.map_some, Option.map_some, Option.bind_some, merged, hvcells, hwcells]
  -- a selected component stands behind those of the whole
  cases hfind : indexes.findIdx? (· = k) with
  | none =>
    have hlt : k < 4294967296 := by omega
    rw [UInt32.toNat_ofNat_of_lt' hlt, List.getElem?_append_left (by simpa using hk)]
    simp [hk]
  | some j =>
    have hj : j < m.toNat := count ▸ (List.findIdx?_eq_some_iff_getElem.mp hfind).1
    have hlt : n.toNat + j < 4294967296 := by omega
    rw [UInt32.toNat_ofNat_of_lt' hlt, List.getElem?_append_right (by simp)]
    simp [hj]

/-- Code that replaces selected components of a vector. -/
theorem replaceComponents_eq_build (hty : v.ty = .vector s n) (selects : v.ty.Selects indexes)
    (hwty : w.ty = Expr.swizzleType v.ty indexes.length) :
    M.replaceComponents v.ty indexes v.datum w.datum = v.ty.build (merged indexes v w) := by
  obtain ⟨s', hs, htype⟩ := selects.swizzleType_cases
  obtain rfl : s' = s := by simpa [hty, Ty.component?, eq_comm] using hs
  rcases htype with ⟨hone, htype⟩ | ⟨m, hm, htype⟩
  · obtain ⟨i, rfl⟩ := List.length_eq_one_iff.mp hone
    have hi := selects.inside i List.mem_cons_self
    rw [hty] at hi
    refine perform_compositeInsert hty ?_ (hwty.trans htype)
    cases n <;> simpa [Ty.length, Dim.toNat] using hi
  · have hm' := m.toNat_bounds
    have hshuffle := perform_vectorShuffle_merge (M := M) hty (hwty.trans htype) hm
    obtain ⟨i, j, rest, rfl⟩ := List.exists_of_two_le_length (hm ▸ hm'.1)
    exact hshuffle

theorem merged_holds (selects : v.ty.Selects indexes) (distinct : indexes.Nodup)
    (hwty : w.ty = Expr.swizzleType v.ty indexes.length) :
    v.ty.Holds (v.ty.build (merged indexes v w)) ∧
      Overwrites indexes w.datum.cells v.datum.cells
        (v.ty.build (merged indexes v w)).cells := by
  obtain ⟨s, hs, hs', hcount⟩ := selects.components
  have hbasic := Ty.isBasic_of_component? hs
  rw [← hwty] at hs' hcount
  refine ⟨(Ty.holds_iff_build hs).mpr ⟨_, fun k hk => ?_, rfl⟩, fun j k hj => ?_, fun k hk => ?_⟩
  · unfold merged
    split
    · rename_i j hfind
      exact Value.type_cell hs' (hcount ▸ (List.findIdx?_eq_some_iff_getElem.mp hfind).1)
    · exact Value.type_cell hs hk
  · obtain ⟨hlt, rfl⟩ := List.getElem?_eq_some_iff.mp hj
    have hin : indexes[j] < v.ty.componentCount := by
      rw [← Ty.cellCount_eq_componentCount hbasic]
      exact selects.cellCount_eq.1 _ (List.getElem_mem hlt)
    have hfind : indexes.findIdx? (· = indexes[j]) = some j :=
      List.findIdx?_eq_some_iff_getElem.mpr ⟨hlt, by simp, fun i hi => by
        simpa using fun heq => Nat.ne_of_lt hi (distinct.getElem_inj_iff.mp heq)⟩
    rw [Ty.cells_build hbasic, List.getElem?_map, List.getElem?_range hin,
      cells_datum (Ty.isBasic_of_component? hs'), List.getElem?_map,
      List.getElem?_range (hcount.symm ▸ hlt), Option.map_some, Option.map_some, merged, hfind]
  · have hfind : indexes.findIdx? (· = k) = none := by
      refine List.findIdx?_eq_none_iff.mpr fun i hi => ?_
      simpa using fun heq : i = k => hk (heq ▸ hi)
    rw [Ty.cells_build hbasic, cells_datum hbasic, List.getElem?_map, List.getElem?_map]
    by_cases hin : k < v.ty.componentCount
    · rw [List.getElem?_range hin, Option.map_some, Option.map_some, merged, hfind]
    · simp [hin]

end Machine

namespace Location

variable {M : Machine} {l : Location} {memory : Nat → Datum} {ty t : Ty} {d : Datum}

/-- Components of the whole that a location names, in their order. -/
def chosen (l : Location) : List Nat :=
  match l.selected with
  | none => List.range l.whole.cellCount
  | some indexes => indexes

/-- No component is selected twice. -/
def Once (l : Location) : Prop := ∀ indexes, l.selected = some indexes → indexes.Nodup

theorem chosen_facts (h : l.HasType ty) (once : l.Once) :
    l.chosen.Nodup ∧ l.chosen.length = ty.cellCount ∧ ∀ k ∈ l.chosen, k < l.whole.cellCount := by
  unfold chosen
  cases hselected : l.selected with
  | none =>
    refine ⟨List.nodup_range, ?_, fun k hk => List.mem_range.mp hk⟩
    rw [List.length_range, h.whole hselected]
  | some indexes =>
    obtain ⟨hselects, rfl⟩ := h.part indexes hselected
    obtain ⟨hinside, hcount⟩ := hselects.cellCount_eq
    exact ⟨once indexes hselected, hcount.symm, hinside⟩

/-- A read gives the components that are named. -/
theorem read_holds (h : l.HasType ty) (hwhole : l.whole.Holds (l.wholeDatum memory)) :
    ty.Holds (l.read M memory) ∧
      Picks l.chosen (l.wholeDatum memory).cells (l.read M memory).cells := by
  unfold Location.read Location.chosen Location.ty
  cases hselected : l.selected with
  | none =>
    refine ⟨h.whole hselected ▸ hwhole, fun j k hj => ?_⟩
    obtain ⟨-, rfl⟩ := List.getElem?_eq_some_iff.mp hj
    rw [List.getElem_range]
  | some indexes =>
    obtain ⟨hselects, rfl⟩ := h.part indexes hselected
    dsimp only
    generalize l.whole = whole at hselects hwhole ⊢
    obtain ⟨v, rfl, hv⟩ := hwhole
    rw [← hv]
    obtain ⟨s, hs, hs', hcount⟩ := hselects.components
    have hpick (j : Nat) (hj : j < indexes.length) : pick v.ty indexes j < v.ty.componentCount := by
      rw [hselects.pick_eq hj, ← Ty.cellCount_eq_componentCount (Ty.isBasic_of_component? hs)]
      exact hselects.cellCount_eq.1 _ (List.getElem_mem hj)
    rw [Machine.selectComponents_eq_build hselects]
    refine ⟨(Ty.holds_iff_build hs').mpr ⟨_, fun j hj => ?_, rfl⟩, fun j k hj => ?_⟩
    · exact Value.type_cell hs (hpick j (hcount ▸ hj))
    · obtain ⟨hlt, rfl⟩ := List.getElem?_eq_some_iff.mp hj
      have hin := hpick j hlt
      rw [Ty.cells_build (Ty.isBasic_of_component? hs'), List.getElem?_map,
        List.getElem?_range (hcount.symm ▸ hlt), Machine.cells_datum (Ty.isBasic_of_component? hs),
        List.getElem?_map, ← hselects.pick_eq hlt, List.getElem?_range hin]
      rfl

/-- A store replaces the components that are named. None is named twice, by `once`, so the order in
    which they are replaced does not matter. -/
theorem written_holds (h : l.HasType ty) (once : l.Once)
    (hwhole : l.whole.Holds (l.wholeDatum memory)) (hd : ty.Holds d) :
    l.whole.Holds (l.written M memory d) ∧
      Overwrites l.chosen d.cells (l.wholeDatum memory).cells
        (l.written M memory d).cells := by
  unfold Location.written Location.chosen
  cases hselected : l.selected with
  | none =>
    rw [← h.whole hselected] at hd
    refine ⟨hd, fun j k hj => ?_, fun k hk => ?_⟩
    · obtain ⟨-, rfl⟩ := List.getElem?_eq_some_iff.mp hj
      rw [List.getElem_range]
    · have hle : l.whole.cellCount ≤ k := by simpa using hk
      rw [List.getElem?_eq_none (Ty.length_cells hd ▸ hle),
        List.getElem?_eq_none (Ty.length_cells hwhole ▸ hle)]
  | some indexes =>
    obtain ⟨hselects, rfl⟩ := h.part indexes hselected
    have hnodup := once indexes hselected
    dsimp only
    generalize l.whole = whole at hselects hwhole hd ⊢
    obtain ⟨v, rfl, hv⟩ := hwhole
    obtain ⟨w, hwty, rfl⟩ := hd
    rw [← hv]
    rcases hselects.shape with ⟨s, hty⟩ | ⟨s, n, hty⟩
    -- the only component of a scalar
    · have hone : indexes = [0] := hselects.eq_singleton hty hnodup
      have hscalar : v.ty.isScalar = true := by rw [hty]; rfl
      rw [hone, hty] at hwty
      rw [hscalar, if_pos rfl, hone]
      refine ⟨⟨w, hwty.trans hty.symm, rfl⟩, fun j k hj => ?_, fun k hk => ?_⟩
      · obtain ⟨hlt, rfl⟩ := List.getElem?_eq_some_iff.mp hj
        obtain rfl : j = 0 := Nat.lt_one_iff.mp hlt
        rfl
      · have hk : 1 ≤ k := by
          rw [List.mem_singleton] at hk
          omega
        rw [List.getElem?_eq_none (Ty.length_cells ⟨w, hwty, rfl⟩ ▸ hk),
          List.getElem?_eq_none (Ty.length_cells ⟨v, hty, rfl⟩ ▸ hk)]
    · have hscalar : v.ty.isScalar = false := by rw [hty]; rfl
      rw [hscalar, if_neg Bool.false_ne_true, Machine.replaceComponents_eq_build hty hselects hwty]
      exact Machine.merged_holds hselects hnodup hwty

/-- A location in a variable of type `t` names components of it: those of a part of the variable, or
    some of them, and none of them twice. Reading gives what they hold, and writing replaces them
    and nothing else. -/
structure Names (l : Location) (t ty : Ty) (positions : List Nat) : Prop where
  typed : l.HasType ty
  once : l.Once
  part : ∃ offset, t.Within l.path offset l.whole ∧ positions = l.chosen.map (offset + ·)

variable {positions : List Nat}

theorem Names.read_holds (h : l.Names t ty positions) (hx : t.Holds (memory l.variableId)) :
    ty.Holds (l.read M memory) ∧
      Picks positions (memory l.variableId).cells (l.read M memory).cells := by
  obtain ⟨offset, hwithin, rfl⟩ := h.part
  obtain ⟨before, behind, rfl, hwhole, hcells, -⟩ := hwithin.split hx
  obtain ⟨hread, hpicks⟩ := Location.read_holds (M := M) h.typed hwhole
  obtain ⟨-, -, hinside⟩ := chosen_facts h.typed h.once
  rw [hcells]
  exact ⟨hread, hpicks.shift fun k hk => Ty.length_cells hwhole ▸ hinside k hk⟩

theorem Names.write_holds (h : l.Names t ty positions) (hx : t.Holds (memory l.variableId))
    (hd : ty.Holds d) : t.Holds (l.write M memory d l.variableId) ∧
      Overwrites positions d.cells (memory l.variableId).cells
        (l.write M memory d l.variableId).cells := by
  obtain ⟨offset, hwithin, rfl⟩ := h.part
  obtain ⟨before, behind, rfl, hwhole, hcells, hreplace⟩ := hwithin.split hx
  obtain ⟨hwritten, hoverwrites⟩ := written_holds (M := M) h.typed h.once hwhole hd
  obtain ⟨hnew, hnewCells⟩ := hreplace _ hwritten
  obtain ⟨-, -, hinside⟩ := chosen_facts h.typed h.once
  rw [Location.write, Function.update_self, hnewCells, hcells]
  refine ⟨hnew, hoverwrites.shift (fun k hk => ?_) ?_⟩
  · exact Ty.length_cells hwritten ▸ hinside k hk
  · rw [Ty.length_cells hwritten, ← Ty.length_cells hwhole]
    rfl

theorem Names.length_positions (h : l.Names t ty positions) : positions.length = ty.cellCount := by
  obtain ⟨offset, -, rfl⟩ := h.part
  rw [List.length_map, (chosen_facts h.typed h.once).2.1]

end Location

namespace Location.Names

variable {M : Machine} {l : Location} {memory : Nat → Datum} {t ty : Ty} {positions : List Nat}
  {d d' : Datum}

/-- What is written is read again. -/
theorem read_write (h : l.Names t ty positions) (hx : t.Holds (memory l.variableId))
    (hd : ty.Holds d) : l.read M (l.write M memory d) = d := by
  obtain ⟨hnew, hoverwrites⟩ := h.write_holds (M := M) hx hd
  obtain ⟨hread, hpicks⟩ := h.read_holds (M := M) hnew
  refine hread.ext hd (hoverwrites.eq_of_length hpicks ?_ ?_)
  · rw [Ty.length_cells hd, h.length_positions]
  · rw [Ty.length_cells hread, h.length_positions]

/-- Writing what was read changes nothing. -/
theorem write_read (h : l.Names t ty positions) (hx : t.Holds (memory l.variableId)) :
    l.write M memory (l.read M memory) = memory := by
  obtain ⟨hread, hpicks⟩ := h.read_holds (M := M) hx
  obtain ⟨hnew, hoverwrites⟩ := h.write_holds (M := M) hx hread
  funext k
  by_cases hk : k = l.variableId
  · rw [hk]
    exact hnew.ext hx (hoverwrites.eq_of_picks hpicks)
  · exact Function.update_of_ne hk _ _

/-- What was written before does not matter. -/
theorem write_write (h : l.Names t ty positions) (hx : t.Holds (memory l.variableId))
    (hd : ty.Holds d) (hd' : ty.Holds d') :
    l.write M (l.write M memory d) d' = l.write M memory d' := by
  obtain ⟨hmiddle, hfirst⟩ := h.write_holds (M := M) hx hd
  obtain ⟨hboth, hsecond⟩ := h.write_holds (M := M) hmiddle hd'
  obtain ⟨honly, hoverwrites⟩ := h.write_holds (M := M) hx hd'
  funext k
  by_cases hk : k = l.variableId
  · rw [hk]
    exact hboth.ext honly (hoverwrites.eq_of_overwrites hfirst hsecond)
  · exact (Function.update_of_ne hk _ _).trans
      ((Function.update_of_ne hk _ _).trans (Function.update_of_ne hk _ _).symm)

/-- Components that are not named hold what they held. -/
theorem cell?_write (h : l.Names t ty positions) (hx : t.Holds (memory l.variableId))
    (hd : ty.Holds d) {k : Nat} (hk : k ∉ positions) :
    (l.write M memory d l.variableId).cell? k = (memory l.variableId).cell? k :=
  (h.write_holds hx hd).2.others k hk

end Location.Names

/-- A selection from a location names some of the components that the location names. -/
theorem Location.chosen_select {l : Location} {ty : Ty} {indexes : List Nat} (h : l.HasType ty)
    (selects : ty.Selects indexes) :
    (l.select indexes).chosen = indexes.map (l.chosen.getD · 0) := by
  cases hselected : l.selected with
  | none =>
    unfold chosen
    rw [selected_select_of_none hselected, hselected]
    refine (List.map_id' indexes).symm.trans (List.map_congr_left fun i hi => ?_)
    have hlt := selects.cellCount_eq.1 i hi
    rw [← h.whole hselected] at hlt
    simp [hlt]
  | some current =>
    unfold chosen
    rw [selected_select_of_some hselected, hselected]

theorem Ty.cellCounts_take : ∀ {members : List (String × Ty)} {index : Nat} {m : String × Ty},
    members[index]? = some m → cellCounts (members.take index) + m.2.cellCount ≤ cellCounts members
  | (_, t) :: rest, 0, m, h => by
    obtain rfl := Option.some.inj h
    rw [List.take_zero, cellCounts, cellCounts, Nat.zero_add]
    exact Nat.le_add_right _ _
  | (_, t) :: rest, index + 1, m, h => by
    have hrest : cellCounts (rest.take index) + m.2.cellCount ≤ cellCounts rest := cellCounts_take h
    rw [List.take_succ_cons, cellCounts, cellCounts]
    omega

/-- A member of a type that has it stands behind the members in front of it. -/
theorem Ty.within_member {ty : Ty} {index : Nat} (found : index < ty.members.length) :
    ty.Within [index] (cellCounts (ty.members.take index)) (ty.memberType index) ∧
      cellCounts (ty.members.take index) + (ty.memberType index).cellCount ≤ ty.cellCount := by
  cases ty with
  | void | scalar | vector | matrix => simp [members] at found
  | struct name ms =>
    have hmember : ms[index]? = some ms[index] := List.getElem?_eq_getElem found
    have hmemberType : (struct name ms).memberType index = ms[index].2 := by
      rw [memberType, members, hmember, Option.elim_some]
    rw [hmemberType]
    exact ⟨.member hmember (.here _), cellCounts_take hmember⟩

namespace Location.Names

variable {l : Location} {t ty : Ty} {positions : List Nat}

/-- The components of a member are some of those of its struct, one behind the other. -/
theorem member (h : l.Names t ty positions) {index : Nat} (found : index < ty.members.length) :
    Names { l with path := l.path ++ [index], whole := ty.memberType index } t
      (ty.memberType index) ((positions.drop (Ty.cellCounts (ty.members.take index))).take
        (ty.memberType index).cellCount) := by
  obtain ⟨offset, hwithin, hpositions⟩ := h.part
  have hnone := Expr.Checked.selected_eq_none h.typed found
  have hwhole := h.typed.whole hnone
  obtain ⟨hinside, hcount⟩ := Ty.within_member found
  refine ⟨⟨fun _ => rfl, by simp [hnone]⟩, by simp [Location.Once, hnone], _,
    Ty.Within.append (hwhole ▸ hwithin) hinside, ?_⟩
  simp only [hpositions, Location.chosen, hnone, hwhole]
  rw [List.drop_take_map_range hcount]
  exact List.map_congr_left fun i _ => (Nat.add_assoc _ _ _).symm

/-- A selection names some of the components that the location names, and none of them twice. -/
theorem select (h : l.Names t ty positions) {indexes : List Nat} (selects : ty.Selects indexes)
    (distinct : indexes.Nodup) :
    (l.select indexes).Names t (Expr.swizzleType ty indexes.length)
      (indexes.map (positions.getD · 0)) := by
  obtain ⟨offset, hwithin, hpositions⟩ := h.part
  obtain ⟨hnodup, hlength, -⟩ := Location.chosen_facts h.typed h.once
  have hchosen := Location.chosen_select h.typed selects
  have hlt (i : Nat) (hi : i ∈ indexes) : i < l.chosen.length :=
    hlength ▸ selects.cellCount_eq.1 i hi
  refine ⟨h.typed.select selects, fun chosen hselected => ?_, offset, hwithin, ?_⟩
  · have heq : (l.select indexes).chosen = chosen := by rw [Location.chosen, hselected]
    rw [← heq, hchosen]
    refine List.Nodup.map_on (fun i hi j hj hij => ?_) distinct
    rw [List.getD_eq_getElem?_getD, List.getD_eq_getElem?_getD,
      List.getElem?_eq_getElem (hlt i hi), List.getElem?_eq_getElem (hlt j hj)] at hij
    exact hnodup.getElem_inj_iff.mp hij
  · rw [hchosen, hpositions, List.map_map]
    refine List.map_congr_left fun i hi => ?_
    rw [Function.comp_apply, List.getD_eq_getElem?_getD, List.getD_eq_getElem?_getD,
      List.getElem?_map, List.getElem?_eq_getElem (hlt i hi)]
    rfl

end Location.Names

namespace Expr

/-- Numbers of the components of its variable that a chain names, in order. -/
def positions : Expr → List Nat
  | .reference x => List.range x.ty.cellCount
  | .member base index =>
    (base.positions.drop (Ty.cellCounts (base.ty.members.take index))).take
      (base.ty.memberType index).cellCount
  | .swizzle base _ indexes => indexes.map (base.positions.getD · 0)
  | _ => []

/-- The location of a chain that can be assigned to names the components that the chain names. -/
theorem location_names {xs : List Variable} {e : Expr} (h : e.Checked xs)
    (assignable : e.isAssignable) :
    ∃ l x, e.location? = some l ∧ e.assigned? = some x ∧ l.variableId = x.id ∧
      l.Names x.ty e.ty e.positions := by
  induction h with
  | @reference x declared =>
    refine ⟨_, x, rfl, rfl, rfl, ⟨fun _ => rfl, by simp⟩, by simp [Location.Once], 0, .here _, ?_⟩
    simp [positions, Location.chosen]
  | member _ found ih =>
    obtain ⟨l, x, hl, hx, hid, hnames⟩ := ih assignable
    refine ⟨_, x, ?_, hx, ?_, hnames.member found⟩
    · rw [location?, hl, Option.map_some]
    · exact hid
  | swizzle _ shape any few inside ih =>
    obtain ⟨hdistinct, hassignable⟩ := Bool.and_eq_true_iff.mp assignable
    obtain ⟨l, x, hl, hx, hid, hnames⟩ := ih hassignable
    have hnodup := List.nodup_of_length_eraseDups (of_decide_eq_true hdistinct)
    refine ⟨_, x, ?_, hx, ?_, hnames.select ⟨shape, any, few, inside⟩ hnodup⟩
    · rw [location?, hl, Option.map_some]
    · exact hid
  | constant | binary | assign | negate | construct | call =>
    exact absurd assignable Bool.false_ne_true

end Expr

end ShaderExpr
