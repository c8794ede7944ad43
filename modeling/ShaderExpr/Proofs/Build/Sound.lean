import ShaderExpr.Proofs.Expr.Typing
import ShaderExpr.Proofs.Module.Monotone

namespace ShaderExpr

open Typing

namespace Ty

mutual
/-- Types that a module may declare besides void: those of components all through, and only with
    matrices of floating components unless others are cast to. -/
def isAllowed (casts : Bool) : Ty → Bool
  | .void => false
  | .scalar _ | .vector .. => true
  | .matrix s _ _ => casts || s.isFloating
  | .struct _ members => membersAllowed casts members
def membersAllowed (casts : Bool) : List (String × Ty) → Bool
  | [] => true
  | (_, t) :: rest => t.isAllowed casts && membersAllowed casts rest
end

mutual
theorem isAllowed_of_isProper (casts : Bool) : ∀ {ty : Ty}, ty.isProper → ty.isAllowed casts
  | .void, h => by simp [isProper] at h
  | .scalar _, _ | .vector .., _ => rfl
  | .matrix s _ _, h => by
    have hs : s.isFloating := h
    simp [isAllowed, hs]
  | .struct _ members, h => membersAllowed_of_membersProper casts (show membersProper members from h)
theorem membersAllowed_of_membersProper (casts : Bool) : ∀ {ms : List (String × Ty)},
    membersProper ms → membersAllowed casts ms
  | [], _ => rfl
  | (_, _) :: _, h => by
    obtain ⟨ht, hrest⟩ := Bool.and_eq_true_iff.mp h
    exact Bool.and_eq_true_iff.mpr
      ⟨isAllowed_of_isProper casts ht, membersAllowed_of_membersProper casts hrest⟩
end

end Ty

/-- Pieces of some bytes, each of `size` bytes. -/
def pieces (size : Nat) : Nat → List UInt8 → List (List UInt8)
  | 0, _ => []
  | count + 1, data => data.take size :: pieces size count (data.drop size)

namespace Builder

/-- The import of extended instructions, once they are used. -/
def imports (b : Builder) : List Instruction :=
  match b.extendedSet with
  | some set => [⟨.extInstImport, set :: extendedSetName⟩]
  | none => []

/-- Instructions in front of the body function. -/
def front (b : Builder) : List Instruction := b.imports ++ b.define

/-- All instructions so far that have a result or act on variables. -/
def emitted (b : Builder) : List Instruction := b.front ++ b.code

/-- Type `ty` is declared under an id, and so are the types that it is made of. -/
def Declares (b : Builder) : Ty → Id → Prop
  | .void, t => ⟨.typeVoid, [t]⟩ ∈ b.front
  | .scalar s, t => s.declaration t ∈ b.front
  | .vector s n, t => ∃ c, b.types.lookup (.scalar s) = some c ∧
      ⟨.typeVector, [t, c, UInt32.ofNat n.toNat]⟩ ∈ b.front
  | .matrix s columns rows, t => ∃ c, b.types.lookup (.vector s rows) = some c ∧
      ⟨.typeMatrix, [t, c, UInt32.ofNat columns.toNat]⟩ ∈ b.front
  | .struct _ members, t => ∃ ids, List.Forall₂ (fun m id => b.types.lookup m.2 = some id)
      members ids ∧ ⟨.typeStruct, t :: ids⟩ ∈ b.front ∧ members.length < Instruction.maxWordCount

/-- A component is defined under an id. -/
def HoldsScalar (b : Builder) (s : ScalarType) (data : List UInt8) (id : Id) : Prop :=
  ∃ t x, b.types.lookup (.scalar s) = some t ∧ Scalar.ofBytes? s data = some x ∧
    x.definition t id ∈ b.front

/-- A constant made of others is defined under an id. -/
def HoldsParts (b : Builder) (ty : Ty) (id : Id) (parts : List Id) : Prop :=
  ∃ t, b.types.lookup ty = some t ∧ ⟨.constantComposite, t :: id :: parts⟩ ∈ b.front

def HoldsVector (b : Builder) (s : ScalarType) (n : Dim) (data : List UInt8) (id : Id) : Prop :=
  ∃ parts, b.HoldsParts (.vector s n) id parts ∧
    List.Forall₂ (b.HoldsScalar s) (pieces s.size n.toNat data) parts

def HoldsMatrix (b : Builder) (s : ScalarType) (columns rows : Dim) (data : List UInt8)
    (id : Id) : Prop :=
  ∃ parts, b.HoldsParts (.matrix s columns rows) id parts ∧
    List.Forall₂ (b.HoldsVector s rows) (pieces (s.size * rows.toNat) columns.toNat data) parts

mutual
/-- The constant of a type with the given bytes is defined under an id. -/
def Holds (b : Builder) : Ty → List UInt8 → Id → Prop
  | .void, _, _ => False
  | .scalar s, data, id => b.HoldsScalar s data id
  | .vector s n, data, id => b.HoldsVector s n data id
  | .matrix s columns rows, data, id => b.HoldsMatrix s columns rows data id
  | .struct name members, data, id =>
    ∃ parts, b.HoldsParts (.struct name members) id parts ∧ HoldsMembers b members data parts
def HoldsMembers (b : Builder) : List (String × Ty) → List UInt8 → List Id → Prop
  | [], _, parts => parts = []
  | (_, t) :: rest, data, parts => ∃ id ids, parts = id :: ids ∧ Holds b t (data.take t.size) id ∧
      HoldsMembers b rest (data.drop t.size) ids
end

/-- A variable starts with the constant of its initial value if it has one. -/
def StartsWith (b : Builder) (x : Variable) (initial : List Id) : Prop :=
  match x.initial with
  | some v => ∃ value, initial = [value] ∧ b.Holds v.ty v.data value
  | none => initial = []

/-- A variable and what it starts with are declared under an id. -/
def DeclaresVariable (b : Builder) (x : Variable) (id : Id) : Prop :=
  ∃ t pointee initial, b.types.lookup x.ty = some pointee ∧
    ⟨.typePointer, [t, x.qualifier.storage.storageClass.number, pointee]⟩ ∈ b.front ∧
    ⟨.var, t :: id :: x.qualifier.storage.storageClass.number :: initial⟩ ∈ b.front ∧
    b.StartsWith x initial

/-- One state of building has all that another one has, and maybe more. -/
structure Includes (b' b : Builder) : Prop where
  types : ∀ ty t, b.types.lookup ty = some t → b'.types.lookup ty = some t
  front : b.front ⊆ b'.front
  code : ∃ new, b'.code = b.code ++ new

/-- From one state of building to a later one, meanings were only added, to new ids. -/
structure Grows (b b' : Builder) : Prop where
  includes : b'.Includes b
  options : b'.options = b.options
  declared : ∀ k id, b.declared.lookup k = some id → b'.declared.lookup k = some id
  nextId : b.nextId.toNat ≤ b'.nextId.toNat
  fresh : ∀ i ∈ b'.emitted, ∀ r, i.result? = some r → i ∈ b.emitted ∨ b.nextId.toNat ≤ r.toNat

/-- A state of building whose instructions are well typed in the order in which they will stand, and
    whose tables say what the instructions in front of the code declare. Its variables are among
    `xs`, none of which belongs to the body function, and it has matrices of components that do not
    float only where there are casts to these. Every step of building keeps this and only adds to
    the state. -/
structure Sound (xs : List Variable) (casts : Bool) (b : Builder) : Prop where
  valid : ∀ x ∈ xs, x.Valid
  ids : (xs.map (·.id)).Nodup
  typed : Follows [] b.emitted
  known : ∀ i ∈ b.emitted, ∀ r, i.result? = some r → r.toNat < b.nextId.toNat
  floating : casts = false → ∀ i ∈ b.emitted, FloatingColumns b.emitted i
  types : ∀ ty t, b.types.lookup ty = some t → b.Declares ty t
  pointers : ∀ ty storage t, b.pointerTypes.lookup (ty, storage) = some t →
    ∃ pointee, b.types.lookup ty = some pointee ∧
      ⟨.typePointer, [t, storage.number, pointee]⟩ ∈ b.front
  values : ∀ ty data id, b.values.lookup (ty, data) = some id → b.Holds ty data id
  declared : ∀ x ∈ xs, ∀ id, b.declared.lookup x.id = some id → b.DeclaresVariable x id
  reserved : ∀ k id, b.declared.lookup k = some id → id.toNat < b.nextId.toNat
  distinct : ∀ k k' id, b.declared.lookup k = some id → b.declared.lookup k' = some id → k = k'
  parameters : b.parameters = []
  declare : b.declare = []

/-- A value of type `ty` has an id. -/
def Typed (b : Builder) (id : Id) (ty : Ty) : Prop :=
  ∃ t, b.types.lookup ty = some t ∧ HasType b.emitted id t

end Builder

end ShaderExpr
