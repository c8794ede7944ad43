import ShaderExpr.Proofs.Collections
import ShaderExpr.Proofs.Expr.Evaluation
import ShaderExpr.Proofs.Interning.Steps
import ShaderExpr.Proofs.Value.Bytes

namespace ShaderExpr

/-- What there is when code runs: a component, or a composite of the components of a vector, the
    columns of a matrix or the members of a struct. Types only matter for their shape, which a datum
    has from them. -/
inductive Datum
  | scalar (x : Scalar)
  | composite (parts : List Datum)

namespace Datum

/-- What there is in place of a part that is missing. -/
def nothing : Datum := .composite []

def parts : Datum → List Datum
  | .scalar _ => []
  | .composite parts => parts

mutual
/-- All components in order. -/
def cells : Datum → List Scalar
  | .scalar x => [x]
  | .composite parts => cellsOf parts
def cellsOf : List Datum → List Scalar
  | [] => []
  | d :: ds => d.cells ++ cellsOf ds
end

def cell? (d : Datum) (i : Nat) : Option Scalar := d.cells[i]?

def part (d : Datum) (i : Nat) : Datum := d.parts.getD i nothing

/-- The part that a path leads to. -/
def follow (d : Datum) (path : List Nat) : Datum := path.foldl part d

theorem follow_append (d : Datum) (path path' : List Nat) :
    d.follow (path ++ path') = (d.follow path).follow path' :=
  List.foldl_append

/-- Replaces the part that a path leads to. -/
def replace (d : Datum) : List Nat → Datum → Datum
  | [], new => new
  | i :: path, new =>
    match d with
    | .scalar x => .scalar x
    | .composite parts => .composite (parts.modify i fun part => part.replace path new)

/-- Number of a member, as it is written in a path. -/
def index? : Datum → Option Nat
  | .scalar (.int n) => some n.toInt.toNat
  | .scalar (.uint n) => some n.toNat
  | _ => none

end Datum

namespace Ty

/-- Datum of a basic type from its components. -/
def build (ty : Ty) (f : Nat → Scalar) : Datum :=
  match ty with
  | .void | .struct .. => .nothing
  | .scalar _ => .scalar (f 0)
  | .vector _ n => .composite ((List.range n.toNat).map fun i => .scalar (f i))
  | .matrix _ columns rows => .composite ((List.range columns.toNat).map fun column =>
      .composite ((List.range rows.toNat).map fun row => .scalar (f (column * rows.toNat + row))))

/-- Datum of a basic type from components, if all are there. -/
def fill? (ty : Ty) (f : Nat → Option Scalar) : Option Datum :=
  ((List.range ty.componentCount).mapM f).map fun cs => ty.build fun i => cs.getD i (.bool false)

mutual
/-- The datum that the bytes of a type hold. -/
def datum : Ty → List UInt8 → Datum
  | .void, _ => .nothing
  | .scalar s, data => scalarDatum s data
  | .vector s n, data => vectorDatum s n data
  | .matrix s columns rows, data =>
    .composite ((pieces (s.size * rows.toNat) columns.toNat data).map (vectorDatum s rows))
  | .struct _ members, data => .composite (memberData members data)
where
  scalarDatum (s : ScalarType) (data : List UInt8) : Datum :=
    .scalar ((Scalar.ofBytes? s data).getD (.bool false))
  vectorDatum (s : ScalarType) (n : Dim) (data : List UInt8) : Datum :=
    .composite ((pieces s.size n.toNat data).map (scalarDatum s))
def memberData : List (String × Ty) → List UInt8 → List Datum
  | [], _ => []
  | (_, t) :: rest, data => t.datum (data.take t.size) :: memberData rest (data.drop t.size)
end

variable {ty : Ty} {s : ScalarType} {f g : Nat → Scalar}

theorem build_congr (h : ∀ i < ty.componentCount, f i = g i) : ty.build f = ty.build g := by
  cases ty with
  | void | struct => rfl
  | scalar => rw [build, build, h 0 Nat.zero_lt_one]
  | vector s n =>
    refine congrArg Datum.composite (List.map_congr_left fun i hi => ?_)
    rw [h i (List.mem_range.mp hi)]
  | matrix s columns rows =>
    refine congrArg Datum.composite (List.map_congr_left fun column hcolumn => ?_)
    refine congrArg Datum.composite (List.map_congr_left fun row hrow => ?_)
    rw [h _ (Folding.lt_count_of_position (List.mem_range.mp hcolumn) (List.mem_range.mp hrow))]

theorem cells_build (basic : ty.isBasic) :
    (ty.build f).cells = (List.range ty.componentCount).map f := by
  cases ty with
  | void | struct => simp [isBasic] at basic
  | scalar => rfl
  | vector s n => cases n <;> rfl
  | matrix s columns rows => cases columns <;> cases rows <;> rfl

theorem cell?_build (basic : ty.isBasic) {i : Nat} (hi : i < ty.componentCount) :
    (ty.build f).cell? i = some (f i) := by
  rw [Datum.cell?, cells_build basic, List.getElem?_map, List.getElem?_range hi, Option.map_some]

theorem fill?_eq_build {p : Nat → Option Scalar} (h : ∀ i < ty.componentCount, p i = some (f i)) :
    ty.fill? p = some (ty.build f) := by
  have hall : (List.range ty.componentCount).mapM p =
      some ((List.range ty.componentCount).map f) :=
    Option.mapM_eq_map fun i hi => h i (List.mem_range.mp hi)
  rw [fill?, hall, Option.map_some, Option.some.injEq]
  refine build_congr fun i hi => ?_
  simp [hi]

theorem part_build_vector {n : Dim} {i : Nat} (hi : i < n.toNat) :
    ((vector s n).build f).part i = .scalar (f i) := by
  simp [build, Datum.part, Datum.parts, hi]

theorem part_build_matrix {columns rows : Dim} {i : Nat} (hi : i < columns.toNat) :
    ((matrix s columns rows).build f).part i =
      (vector s rows).build fun row => f (i * rows.toNat + row) := by
  simp [build, Datum.part, Datum.parts, hi]

end Ty

theorem pieces_eq {size : Nat} : ∀ {count : Nat} {data : List UInt8}, pieces size count data =
    (List.range count).map fun i => (data.drop (i * size)).take size
  | 0, _ => rfl
  | count + 1, data => by
    rw [pieces, pieces_eq, List.range_succ_eq_map, List.map_cons, Nat.zero_mul, List.drop_zero,
      List.map_map]
    refine congrArg _ (List.map_congr_left fun i _ => ?_)
    rw [List.drop_drop, Function.comp_apply, Nat.succ_mul, Nat.add_comm]

theorem memberData_eq_map : ∀ (members : List (String × Ty)) (data : List UInt8),
    Ty.memberData members data =
      (memberPieces members data).map fun part => part.1.datum part.2
  | [], _ => rfl
  | m :: members, data => by
    rw [Ty.memberData, memberPieces, List.map_cons, memberData_eq_map members]

/-- A member is found behind the members in front of it. -/
theorem getElem?_memberPieces : ∀ {members : List (String × Ty)} {data : List UInt8} {i : Nat},
    (memberPieces members data)[i]? = members[i]?.map fun m =>
      (m.2, (data.drop (Ty.membersSize (members.take i))).take m.2.size)
  | [], _, _ => rfl
  | _ :: _, _, 0 => rfl
  | (name, t) :: members, data, i + 1 => by
    rw [memberPieces, List.getElem?_cons_succ, getElem?_memberPieces, List.getElem?_cons_succ,
      List.take_succ_cons, Ty.membersSize, List.drop_drop]

namespace Value

/-- Component `i` of a basic value. -/
def cell (v : Value) (i : Nat) : Scalar := (v.get? i).getD (.bool false)

def datum (v : Value) : Datum := v.ty.datum v.data

variable {v : Value} {s : ScalarType} {ty : Ty} {cs : List Scalar}

theorem get?_eq_cell (hs : v.ty.component? = some s) {i : Nat} (hi : i < v.ty.componentCount) :
    v.get? i = some (v.cell i) ∧ (v.cell i).type = s := by
  obtain ⟨x, hx, hxs⟩ := v.get?_total hs hi
  have hcell : v.cell i = x := by rw [cell, hx, Option.getD_some]
  rw [hcell]
  exact ⟨hx, hxs⟩

theorem components_eq (basic : v.ty.isBasic) :
    v.components = (List.range v.ty.componentCount).map v.cell := by
  obtain ⟨s, hs⟩ := Ty.component?_of_isBasic basic
  rw [components, ← List.filterMap_eq_map]
  exact List.filterMap_congr fun i hi => (get?_eq_cell hs (List.mem_range.mp hi)).1

theorem datum_eq_build (basic : v.ty.isBasic) : v.datum = v.ty.build v.cell := by
  have hcell (s : ScalarType) (hs : v.ty.component? = some s) (i : Nat) :
      Ty.datum.scalarDatum s ((v.data.drop (i * s.size)).take s.size) = .scalar (v.cell i) := by
    rw [Ty.datum.scalarDatum, cell, get?, hs, Option.bind_some]
  have hvector (s : ScalarType) (hs : v.ty.component? = some s) (n : Dim) :
      Ty.datum.vectorDatum s n v.data = (Ty.vector s n).build v.cell := by
    rw [Ty.datum.vectorDatum, pieces_eq, List.map_map]
    exact congrArg Datum.composite (List.map_congr_left fun i _ => hcell s hs i)
  have hsize := v.size_eq
  unfold datum
  cases hty : v.ty with
  | void | struct => simp [hty, Ty.isBasic] at basic
  | scalar s =>
    have hs : v.ty.component? = some s := by rw [hty]; rfl
    rw [Ty.datum, Ty.build, ← hcell s hs 0, Nat.zero_mul, List.drop_zero,
      List.take_of_length_le (by rw [hsize, hty]; exact Nat.le_refl _)]
  | vector s n => exact hvector s (by rw [hty]; rfl) n
  | matrix s columns rows =>
    have hs : v.ty.component? = some s := by rw [hty]; rfl
    rw [Ty.datum, pieces_eq, List.map_map]
    refine congrArg Datum.composite (List.map_congr_left fun column _ => ?_)
    rw [Function.comp_apply, Ty.datum.vectorDatum, pieces_eq, List.map_map]
    refine congrArg Datum.composite (List.map_congr_left fun row hrow => ?_)
    rw [Function.comp_apply, List.take_drop_piece (List.mem_range.mp hrow)]
    exact hcell s hs _

theorem datum_eq_build_of_ty {ty : Ty} (hty : v.ty = ty) (basic : ty.isBasic) :
    v.datum = ty.build v.cell :=
  hty ▸ datum_eq_build (hty ▸ basic)

theorem datum_of_ofBytes? {data : List UInt8} (h : ofBytes? ty data = some v) :
    v.datum = ty.datum data := by
  unfold ofBytes? at h
  split at h
  · rw [← Option.some.inj h]
    rfl
  · simp at h

/-- The bytes of the leading components, and zeros where there are too few. -/
theorem bytes_ofComponents (hs : ty.component? = some s) (cs : List Scalar) :
    (ofComponents ty cs).data =
      ((cs.take ty.componentCount).flatMap fun c => (c.convert s).bytes) ++
        List.replicate (s.size * (ty.componentCount - (cs.take ty.componentCount).length)) 0 := by
  unfold ofComponents
  split
  · simp [hs] at *
  · rename_i s' hs'
    obtain rfl : s = s' := Option.some.inj (hs.symm.trans hs')
    rfl

/-- A value of a basic type gives back the components that it is made of. -/
theorem get?_ofComponents (hs : ty.component? = some s) {i : Nat} (hi : i < ty.componentCount)
    {x : Scalar} (hx : cs[i]? = some x) : (ofComponents ty cs).get? i = some (x.convert s) := by
  have hx' : (cs.take ty.componentCount)[i]? = some x := by rw [List.getElem?_take_of_lt hi, hx]
  rw [get?, ofComponents_ty, hs, Option.bind_some, bytes_ofComponents hs,
    List.take_drop_flatMap (fun c _ => c.length_bytes_convert s) hx']
  have h := Scalar.ofBytes?_bytes (x.convert s)
  rwa [Scalar.type_convert] at h

/-- A value of components that have its component type already. -/
theorem datum_ofComponents (hs : ty.component? = some s) {f : Nat → Scalar}
    (h : ∀ i < ty.componentCount, ∃ x, cs[i]? = some x ∧ x.convert s = f i) :
    (ofComponents ty cs).datum = ty.build f := by
  rw [datum_eq_build (by rw [ofComponents_ty]; exact Ty.isBasic_of_component? hs), ofComponents_ty]
  refine Ty.build_congr fun i hi => ?_
  obtain ⟨x, hx, hxf⟩ := h i hi
  rw [cell, get?_ofComponents hs hi hx, Option.getD_some, hxf]

end Value

end ShaderExpr
