import ShaderExpr.Scalar
import ShaderExpr.Ty

namespace ShaderExpr

/-- A value at compile time: a type and the bytes that its components occupy, little-endian,
    matrices by columns and structs member by member without padding. Two values are the same when
    their types and all their bytes are. -/
structure Value where
  ty : Ty
  data : List UInt8
  size_eq : data.length = ty.size
  deriving DecidableEq

/-- Why no value could be made. -/
inductive ValueError
  | typeMismatch (expected found : Ty)
  | wrongSize (ty : Ty) (found : Nat)
  | noFormat (ty : Ty)
  deriving DecidableEq, Repr

def ValueError.message : ValueError → String
  | typeMismatch expected found =>
    "type mismatch: expected " ++ expected.text ++ ", but found " ++ found.text
  | wrongSize ty found =>
    "invalid data for type " ++ ty.text ++ ": expected " ++ toString ty.size ++
      " bytes, but found " ++ toString found
  | noFormat ty => "invalid type: " ++ ty.text ++ " has no binary format"

namespace Value

/-- Every byte is zero. -/
def zero (ty : Ty) : Value := ⟨ty, List.replicate ty.size 0, List.length_replicate⟩

instance : Inhabited Value := ⟨zero .void⟩

/-- Adopts bytes whose number fits the type. -/
def ofBytes? (ty : Ty) (data : List UInt8) : Option Value :=
  if h : data.length = ty.size then some ⟨ty, data, h⟩ else none

/-- Adopts bytes, with the reason when they are no value of the type. -/
def ofData (ty : Ty) (data : List UInt8) : Except ValueError Value :=
  if ty.isVoid then .error (.noFormat ty)
  else match ofBytes? ty data with
    | some v => .ok v
    | none => .error (.wrongSize ty data.length)

/-- Component `i` of a basic value. -/
def get? (v : Value) (i : Nat) : Option Scalar :=
  v.ty.component?.bind fun s => Scalar.ofBytes? s ((v.data.drop (i * s.size)).take s.size)

/-- Replaces component `i`, converting to the component type of the value. -/
def set? (v : Value) (i : Nat) (c : Scalar) : Option Value :=
  v.ty.component?.bind fun s =>
    if (i + 1) * s.size ≤ v.data.length then
      ofBytes? v.ty (v.data.take (i * s.size) ++ (c.convert s).bytes ++
        v.data.drop ((i + 1) * s.size))
    else none

def components (v : Value) : List Scalar :=
  (List.range v.ty.componentCount).filterMap v.get?

theorem length_flatMap_bytes (s : ScalarType) (cs : List Scalar) :
    (cs.flatMap fun c => (c.convert s).bytes).length = s.size * cs.length := by
  induction cs with
  | nil => rfl
  | cons c cs ih =>
    rw [List.flatMap_cons, List.length_append, ih, Scalar.length_bytes_convert, List.length_cons,
      Nat.mul_succ, Nat.add_comm]

theorem size_of_component? {ty : Ty} {s : ScalarType} (h : ty.component? = some s) :
    ty.size = s.size * ty.componentCount := by
  cases ty <;> simp_all [Ty.component?, Ty.size, Ty.componentCount]

/-- Value of a basic type from its leading components, converted to its component type. Zeros
    follow when there are too few, and those in excess are left out. -/
def ofComponents (ty : Ty) (cs : List Scalar) : Value :=
  match h : ty.component? with
  | none => zero ty
  | some s =>
    let used := cs.take ty.componentCount
    { ty
      data := (used.flatMap fun c => (c.convert s).bytes) ++
        List.replicate (s.size * (ty.componentCount - used.length)) 0
      size_eq := by
        rw [List.length_append, length_flatMap_bytes, List.length_replicate,
          size_of_component? h, ← Nat.mul_add]
        have : used.length ≤ ty.componentCount := List.length_take_le _ _
        rw [Nat.add_sub_cancel' this] }

/-- Refuses more components than the type has. -/
def ofComponents? (ty : Ty) (cs : List Scalar) : Option Value :=
  if cs.length ≤ ty.componentCount then some (ofComponents ty cs) else none

def ofScalar (s : Scalar) : Value := ofComponents (.scalar s.type) [s]

/-- Element `i`: a column of a matrix or a component of a vector. -/
def element? (v : Value) (i : Nat) : Option Value :=
  v.ty.element?.bind fun ty =>
    if i < v.ty.length then
      ofBytes? ty ((v.data.drop (i * v.ty.stride)).take v.ty.stride)
    else none

/-- Member `i` of a struct. -/
def member? (v : Value) (i : Nat) : Option Value :=
  (v.ty.members[i]?).bind fun (_, ty) =>
    ofBytes? ty ((v.data.drop (v.ty.memberOffset i)).take ty.size)

/-- Converts component by component into a basic type with as many components. -/
def convert (v : Value) (ty : Ty) : Except ValueError Value :=
  if v.ty = ty then .ok v
  else if v.ty.isBasic && ty.isBasic && v.ty.componentCount == ty.componentCount then
    .ok (ofComponents ty v.components)
  else .error (.typeMismatch ty v.ty)

/-- Struct value from one value per member, each converted to the type of its member. -/
def ofMembers (ty : Ty) (values : List Value) : Except ValueError Value := do
  let converted ← (values.zip ty.members).mapM fun (v, _, t) => v.convert t
  ofData ty (converted.flatMap (·.data))

/-- Texts of the leading components of some bytes. -/
def componentTexts (s : ScalarType) (n : Nat) (data : List UInt8) : List String :=
  (List.range n).filterMap fun i =>
    (Scalar.ofBytes? s ((data.drop (i * s.size)).take s.size)).map Scalar.text

mutual
/-- Text of a type's bytes: a constructor call, or a literal for a scalar. -/
def textOf : Ty → List UInt8 → String
  | .void, _ => ""
  | .struct name members, data =>
    (Ty.struct name members).text ++ "(" ++ ", ".intercalate (memberTexts members data) ++ ")"
  | .scalar s, data => componentTexts s 1 data |> String.join
  | .vector s n, data =>
    (Ty.vector s n).text ++ "(" ++ ", ".intercalate (componentTexts s n.toNat data) ++ ")"
  | .matrix s c r, data =>
    (Ty.matrix s c r).text ++ "(" ++
      ", ".intercalate (componentTexts s (c.toNat * r.toNat) data) ++ ")"
def memberTexts : List (String × Ty) → List UInt8 → List String
  | [], _ => []
  | (_, t) :: rest, data => textOf t (data.take t.size) :: memberTexts rest (data.drop t.size)
end

/-- Source text of a value. -/
def text (v : Value) : String := textOf v.ty v.data

/-- Source text of a value that has components all through. -/
def text? (v : Value) : Option String := if v.ty.isComplete then some v.text else none

end Value

end ShaderExpr
