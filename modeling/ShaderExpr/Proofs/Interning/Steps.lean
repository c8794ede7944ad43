import Mathlib.Logic.Relation
import ShaderExpr.Proofs.Build.Attains
import ShaderExpr.Proofs.Collections

namespace ShaderExpr

open Relation

/-- Parts of a struct constant, each a type with its bytes. -/
def memberPieces : List (String × Ty) → List UInt8 → List (Ty × List UInt8)
  | [], _ => []
  | (_, t) :: rest, data => (t, data.take t.size) :: memberPieces rest (data.drop t.size)

/-- The constants that a constant of a type is made of. -/
def Ty.constantParts : Ty → List UInt8 → List (Ty × List UInt8)
  | .void, _ | .scalar _, _ => []
  | .vector s n, data => (pieces s.size n.toNat data).map (.scalar s, ·)
  | .matrix s columns rows, data =>
    (pieces (s.size * rows.toNat) columns.toNat data).map (.vector s rows, ·)
  | .struct _ members, data => memberPieces members data

/-- What is interned: types, pointer types, constants and variables. -/
inductive Key
  | type (ty : Ty)
  | pointer (ty : Ty) (c : StorageClass)
  | value (ty : Ty) (data : List UInt8)
  | var (k : Nat)
  deriving DecidableEq

def Key.isVar : Key → Bool
  | .var _ => true
  | _ => false

/-- The value that a variable is declared with: its initial value, if its storage can have one. -/
def Variable.start? (x : Variable) : Option Value :=
  if x.qualifier.storage.canInitialize then x.initial else none

/-- Opcodes of types. -/
def Opcode.isType : Opcode → Bool
  | .typeVoid | .typeBool | .typeInt | .typeFloat | .typeVector | .typeMatrix | .typeStruct
  | .typePointer | .typeFunction => true
  | _ => false

/-- Opcodes of names. -/
def Opcode.isName : Opcode → Bool
  | .debugName | .debugMemberName => true
  | _ => false

namespace Builder

/-- The id that a key has got. -/
def find (b : Builder) : Key → Option Id
  | .type ty => b.types.lookup ty
  | .pointer ty c => b.pointerTypes.lookup (ty, c)
  | .value ty data => b.values.lookup (ty, data)
  | .var k => b.declared.lookup k

/-- How a type is spelled: the opcode and what stands behind the id. The types it is made of are in
    the table. -/
inductive Spells (b : Builder) : Ty → Opcode → List UInt32 → Prop
  | void : Spells b .void .typeVoid []
  | bool : Spells b (.scalar .bool) .typeBool []
  | float : Spells b (.scalar .float) .typeFloat [32]
  | double : Spells b (.scalar .double) .typeFloat [64]
  | int : Spells b (.scalar .int) .typeInt [32, 1]
  | uint : Spells b (.scalar .uint) .typeInt [32, 0]
  | vector {s : ScalarType} {n : Dim} {c : Id} (component : b.types.lookup (.scalar s) = some c) :
    Spells b (.vector s n) .typeVector [c, UInt32.ofNat n.toNat]
  | matrix {s : ScalarType} {columns rows : Dim} {c : Id}
    (column : b.types.lookup (.vector s rows) = some c) :
    Spells b (.matrix s columns rows) .typeMatrix [c, UInt32.ofNat columns.toNat]
  | struct {name : Option String} {members : List (String × Ty)} {ids : List Id}
    (made : List.Forall₂ (fun m id => b.types.lookup m.2 = some id) members ids) :
    Spells b (.struct name members) .typeStruct ids

/-- How a constant is spelled: the opcode and what stands behind the id. The constants it is made of
    are in the table. -/
inductive Fills (b : Builder) : Ty → List UInt8 → Opcode → List UInt32 → Prop
  | true {s : ScalarType} {data : List UInt8} (read : Scalar.ofBytes? s data = some (.bool true)) :
    Fills b (.scalar s) data .constantTrue []
  | false {s : ScalarType} {data : List UInt8}
    (read : Scalar.ofBytes? s data = some (.bool false)) :
    Fills b (.scalar s) data .constantFalse []
  | scalar {s : ScalarType} {data : List UInt8} {x : Scalar}
    (read : Scalar.ofBytes? s data = some x) (number : ∀ v, x ≠ .bool v) :
    Fills b (.scalar s) data .constant x.words
  | composite {ty : Ty} {data : List UInt8} {ids : List Id} (whole : ty.isScalar = Bool.false)
    (made : List.Forall₂ (fun part id => b.values.lookup part = some id)
      (ty.constantParts data) ids) : Fills b ty data .constantComposite ids

/-- A type that the table did not have. -/
def withNewType (b : Builder) (ty : Ty) (op : Opcode) (operands : List UInt32) : Builder :=
  { b with
    nextId := b.nextId + 1
    define := b.define ++ [⟨op, b.nextId :: operands⟩]
    types := (ty, b.nextId) :: b.types
    usesDouble := b.usesDouble || ty = .scalar .double }

/-- A pointer type that the table did not have. -/
def withNewPointer (b : Builder) (ty : Ty) (c : StorageClass) (pointee : Id) : Builder :=
  { b with
    nextId := b.nextId + 1
    define := b.define ++ [⟨.typePointer, [b.nextId, c.number, pointee]⟩]
    pointerTypes := ((ty, c), b.nextId) :: b.pointerTypes }

/-- A constant that the table did not have. -/
def withNewValue (b : Builder) (ty : Ty) (data : List UInt8) (op : Opcode) (type : Id)
    (operands : List UInt32) : Builder :=
  { b with
    nextId := b.nextId + 1
    define := b.define ++ [⟨op, type :: b.nextId :: operands⟩]
    values := ((ty, data), b.nextId) :: b.values }

def withName (b : Builder) (i : Instruction) : Builder := { b with debug := b.debug ++ [i] }

/-- The declaration of a variable. -/
def declaration (x : Variable) (id pointer : Id) (initial : List Id) : Instruction :=
  ⟨.var, pointer :: id :: x.qualifier.storage.storageClass.number :: initial⟩

/-- A variable that the table did not have, under an id that was handed out for it. -/
def withVariable (b : Builder) (x : Variable) (id pointer : Id) (initial : List Id)
    (names : List Instruction) : Builder :=
  { b with
    define := if x.qualifier.storage = .body then b.define
      else b.define ++ [declaration x id pointer initial]
    declare := if x.qualifier.storage = .body then b.declare ++ [declaration x id pointer initial]
      else b.declare
    interface := if x.qualifier.storage = .input ∨ x.qualifier.storage = .output then
      b.interface ++ [id] else b.interface
    debug := b.debug ++ names
    declared := (x.id, id) :: b.declared }

/-- A parameter that the table did not have. -/
def withNewParameter (b : Builder) (x : Variable) (pointer : Id) (names : List Instruction) :
    Builder :=
  { b with
    nextId := b.nextId + 1
    parameters := b.parameters ++ [(b.nextId, pointer)]
    debug := b.debug ++ names
    declared := (x.id, b.nextId) :: b.declared }

def withReserved (b : Builder) : Builder := { b with nextId := b.nextId + 1 }

/-- The set of extended instructions, which is used for the first time. -/
def withImport (b : Builder) : Builder :=
  { b with nextId := b.nextId + 1, extendedSet := some b.nextId }

/-- Steps that define types. -/
inductive TypeStep : Builder → Builder → Prop
  | type {b : Builder} {ty : Ty} {op : Opcode} {operands : List UInt32}
    (new : b.types.lookup ty = none) (spelled : b.Spells ty op operands)
    (short : operands.length + 1 < Instruction.maxWordCount) (ids : b.nextId ≠ 0xffffffff) :
    TypeStep b (b.withNewType ty op operands)
  | name {b : Builder} {i : Instruction} (named : i.op.isName)
    (short : i.operands.length < Instruction.maxWordCount) : TypeStep b (b.withName i)

/-- Steps that define types, pointer types and constants. -/
inductive DefinitionStep : Builder → Builder → Prop
  | type {b b' : Builder} (step : TypeStep b b') : DefinitionStep b b'
  | pointer {b : Builder} {ty : Ty} {c : StorageClass} {pointee : Id}
    (new : b.pointerTypes.lookup (ty, c) = none) (known : b.types.lookup ty = some pointee)
    (ids : b.nextId ≠ 0xffffffff) : DefinitionStep b (b.withNewPointer ty c pointee)
  | value {b : Builder} {ty : Ty} {data : List UInt8} {op : Opcode} {type : Id}
    {operands : List UInt32} (new : b.values.lookup (ty, data) = none)
    (known : b.types.lookup ty = some type) (filled : b.Fills ty data op operands)
    (short : operands.length + 2 < Instruction.maxWordCount) (ids : b.nextId ≠ 0xffffffff) :
    DefinitionStep b (b.withNewValue ty data op type operands)

/-- A variable starts with the constant of the value that it is declared with, or with nothing. -/
def Starts (b : Builder) (x : Variable) (initial : List Id) : Prop :=
  x.start? = none ∧ initial = [] ∨ ∃ v id, x.start? = some v ∧
    b.values.lookup (v.ty, v.data) = some id ∧ initial = [id]

/-- Names of a variable: one, or none when the module carries no names. -/
def DebugNames (names : List Instruction) : Prop :=
  ∀ i ∈ names, i.op.isName ∧ i.operands.length < Instruction.maxWordCount

/-- Steps of building. Types, pointer types and constants are only defined when the tables lack
    them, out of what the tables have already; a variable takes its id first and is declared behind
    the constant that it starts with. Variables are among those of a list. Instructions of the code
    have opcodes among those that are allowed, apart from stores and extended instructions. -/
inductive Step (xs : List Variable) (allowed : Opcode → Prop) : Builder → Builder → Prop
  | define {b b' : Builder} (step : DefinitionStep b b') : Step xs allowed b b'
  | declare {b b' : Builder} {x : Variable} {pointer : Id} {initial : List Id}
    {names : List Instruction} (known : x ∈ xs) (new : b.declared.lookup x.id = none)
    (inside : x.isParameter = false)
    (typed : b.pointerTypes.lookup (x.ty, x.qualifier.storage.storageClass) = some pointer)
    (ids : b.nextId ≠ 0xffffffff) (steps : ReflTransGen DefinitionStep b.withReserved b')
    (starts : b'.Starts x initial) (named : DebugNames names) :
    Step xs allowed b (b'.withVariable x b.nextId pointer initial names)
  | parameter {b : Builder} {x : Variable} {pointer : Id} {names : List Instruction}
    (known : x ∈ xs) (new : b.declared.lookup x.id = none) (outside : x.isParameter)
    (typed : b.pointerTypes.lookup (x.ty, x.qualifier.storage.storageClass) = some pointer)
    (ids : b.nextId ≠ 0xffffffff) (named : DebugNames names) :
    Step xs allowed b (b.withNewParameter x pointer names)
  | code {b : Builder} {op : Opcode} {type : Id} {operands : List UInt32} (permitted : allowed op)
    (short : operands.length + 2 < Instruction.maxWordCount) (ids : b.nextId ≠ 0xffffffff) :
    Step xs allowed b (b.withReserved.withCode ⟨op, type :: b.nextId :: operands⟩)
  | store {b : Builder} {operands : List UInt32}
    (short : operands.length < Instruction.maxWordCount) :
    Step xs allowed b (b.withCode ⟨.store, operands⟩)
  | extended {b b₁ b₂ : Builder} {set type : Id} {operands : List UInt32}
    (imported : b₁ = b ∧ b.extendedSet = some set ∨ b.extendedSet = none ∧
      b.nextId ≠ 0xffffffff ∧ b₁ = b.withImport ∧ set = b.nextId)
    (steps : ReflTransGen TypeStep b₁ b₂)
    (short : operands.length + 3 < Instruction.maxWordCount) (ids : b₂.nextId ≠ 0xffffffff) :
    Step xs allowed b (b₂.withReserved.withCode ⟨.extInst, type :: b₂.nextId :: set :: operands⟩)

variable {xs : List Variable} {b b' b'' : Builder} {allowed : Opcode → Prop}

theorem find_withNewType {ty : Ty} {op : Opcode} {operands : List UInt32} (k : Key) :
    (b.withNewType ty op operands).find k = if k = .type ty then some b.nextId else b.find k := by
  cases k <;> simp [find, withNewType, List.lookup_cons_eq]

theorem find_withNewPointer {ty : Ty} {c : StorageClass} {pointee : Id} (k : Key) :
    (b.withNewPointer ty c pointee).find k =
      if k = .pointer ty c then some b.nextId else b.find k := by
  cases k <;> simp [find, withNewPointer, List.lookup_cons_eq]

theorem find_withNewValue {ty : Ty} {data : List UInt8} {op : Opcode} {type : Id}
    {operands : List UInt32} (k : Key) :
    (b.withNewValue ty data op type operands).find k =
      if k = .value ty data then some b.nextId else b.find k := by
  cases k <;> simp [find, withNewValue, List.lookup_cons_eq]

theorem find_withVariable {x : Variable} {id pointer : Id} {initial : List Id}
    {names : List Instruction} (k : Key) :
    (b.withVariable x id pointer initial names).find k =
      if k = .var x.id then some id else b.find k := by
  cases k <;> simp [find, withVariable, List.lookup_cons_eq]

theorem find_withNewParameter {x : Variable} {pointer : Id} {names : List Instruction} (k : Key) :
    (b.withNewParameter x pointer names).find k =
      if k = .var x.id then some b.nextId else b.find k := by
  cases k <;> simp [find, withNewParameter, List.lookup_cons_eq]

/-- Keys keep the ids that they have got. -/
def Keeps (b b' : Builder) : Prop := ∀ k id, b.find k = some id → b'.find k = some id

theorem Keeps.refl (b : Builder) : b.Keeps b := fun _ _ h => h

theorem Keeps.trans (h : b.Keeps b') (h' : b'.Keeps b'') : b.Keeps b'' :=
  fun k id hk => h' k id (h k id hk)

theorem Keeps.of_new (key : Key) {new : Id} (free : b.find key = none)
    (h : ∀ k, b'.find k = if k = key then some new else b.find k) : b.Keeps b' := by
  intro k id hk
  rw [h, if_neg]
  · exact hk
  · rintro rfl
    simp [free] at hk

theorem Keeps.types (h : b.Keeps b') {ty : Ty} {id : Id} (hid : b.types.lookup ty = some id) :
    b'.types.lookup ty = some id := h (.type ty) id hid

theorem Keeps.pointers (h : b.Keeps b') {key : Ty × StorageClass} {id : Id}
    (hid : b.pointerTypes.lookup key = some id) : b'.pointerTypes.lookup key = some id :=
  h (.pointer key.1 key.2) id hid

theorem Keeps.values (h : b.Keeps b') {key : Ty × List UInt8} {id : Id}
    (hid : b.values.lookup key = some id) : b'.values.lookup key = some id :=
  h (.value key.1 key.2) id hid

theorem Spells.keeps {ty : Ty} {op : Opcode} {operands : List UInt32} (hs : b.Spells ty op operands)
    (h : b.Keeps b') : b'.Spells ty op operands := by
  cases hs with
  | void => exact .void
  | bool => exact .bool
  | float => exact .float
  | double => exact .double
  | int => exact .int
  | uint => exact .uint
  | vector component => exact .vector (h.types component)
  | matrix column => exact .matrix (h.types column)
  | struct made => exact .struct (made.imp fun _ _ => h.types)

theorem Fills.keeps {ty : Ty} {data : List UInt8} {op : Opcode} {operands : List UInt32}
    (hs : b.Fills ty data op operands) (h : b.Keeps b') : b'.Fills ty data op operands := by
  cases hs with
  | true read => exact .true read
  | false read => exact .false read
  | scalar read number => exact .scalar read number
  | composite whole made => exact .composite whole (made.imp fun _ _ => h.values)

theorem Starts.keeps {x : Variable} {initial : List Id} (hs : b.Starts x initial)
    (h : b.Keeps b') : b'.Starts x initial := by
  obtain ⟨hnone, heq⟩ | ⟨v, id, hv, hid, heq⟩ := hs
  · exact .inl ⟨hnone, heq⟩
  · exact .inr ⟨v, id, hv, h.values hid, heq⟩

theorem Keeps.of_steps {R : Builder → Builder → Prop} (step : ∀ b b', R b b' → b.Keeps b')
    (h : ReflTransGen R b b') : b.Keeps b' := by
  induction h with
  | refl => exact .refl b
  | tail _ hstep ih => exact ih.trans (step _ _ hstep)

theorem TypeStep.keeps (h : TypeStep b b') : b.Keeps b' := by
  cases h with
  | type new => exact .of_new (.type _) new find_withNewType
  | name => exact .refl b

theorem DefinitionStep.keeps (h : DefinitionStep b b') : b.Keeps b' := by
  cases h with
  | type step => exact step.keeps
  | pointer new => exact .of_new (.pointer _ _) new find_withNewPointer
  | value new => exact .of_new (.value _ _) new find_withNewValue

/-- Definitions do not declare variables. -/
theorem DefinitionStep.declared (h : DefinitionStep b b') : b'.declared = b.declared := by
  cases h with
  | type step => cases step <;> rfl
  | pointer | value => rfl

theorem declared_of_steps (h : ReflTransGen DefinitionStep b b') : b'.declared = b.declared := by
  induction h with
  | refl => rfl
  | tail _ hstep ih => exact hstep.declared.trans ih

theorem Step.keeps (h : Step xs allowed b b') : b.Keeps b' := by
  cases h with
  | define step => exact step.keeps
  | @declare b₁ x pointer initial names _ new _ _ _ steps =>
    have hkeeps : b.withReserved.Keeps b₁ := .of_steps (fun _ _ => DefinitionStep.keeps) steps
    refine fun k id hk => Keeps.of_new (.var x.id) ?_ find_withVariable k id (hkeeps k id hk)
    exact (congrArg (·.lookup x.id) (declared_of_steps steps)).trans new
  | parameter _ new => exact .of_new (.var _) new find_withNewParameter
  | code | store => exact .refl b
  | @extended b₁ b₂ _ _ _ imported steps =>
    have hkeeps : b₁.Keeps b₂ := .of_steps (fun _ _ => TypeStep.keeps) steps
    obtain ⟨rfl, -⟩ | ⟨-, -, rfl, -⟩ := imported
    · exact hkeeps
    · exact hkeeps

end Builder

namespace Build

variable {α β : Type} {R : Builder → Builder → Prop} {b b' : Builder}

/-- Building from `b` fails, or goes on by steps of a kind to where `Q` holds. -/
def Takes (R : Builder → Builder → Prop) (r : Build α) (b : Builder)
    (Q : α → Builder → Prop) : Prop :=
  ∀ a b', r b = .ok (a, b') → ReflTransGen R b b' ∧ Q a b'

namespace Takes

variable {r : Build α} {f : α → Build β} {P Q : α → Builder → Prop} {S : β → Builder → Prop}

theorem mono (h : r.Takes R b P) (hPQ : ∀ a b', ReflTransGen R b b' → P a b' → Q a b') :
    r.Takes R b Q := fun a b' hr =>
  have h := h a b' hr
  ⟨h.1, hPQ a b' h.1 h.2⟩

theorem weaken {T : Builder → Builder → Prop} (h : r.Takes R b Q) (hRT : R ≤ T) :
    r.Takes T b Q := fun a b' hr =>
  have h := h a b' hr
  ⟨ReflTransGen.mono hRT _ _ h.1, h.2⟩

theorem pure {a : α} (h : Q a b) : (pure a : Build α).Takes R b Q := by
  intro a' b' hr
  obtain ⟨rfl, rfl⟩ : a = a' ∧ b = b' := Prod.mk.inj (Except.ok.inj hr)
  exact ⟨.refl, h⟩

theorem throw {e : Fault} : (throw e : Build α).Takes R b Q := by
  intro a b' hr
  have hfault : (Except.error e : Except Fault (α × Builder)) = .ok (a, b') := hr
  simp at hfault

theorem bind (h : r.Takes R b P)
    (hf : ∀ a b', ReflTransGen R b b' → P a b' → (f a).Takes R b' S) :
    (r >>= f).Takes R b S := by
  intro c b'' hr
  obtain ⟨a, b', ha, hc⟩ := bind_eq_ok.mp hr
  obtain ⟨hsteps, hP⟩ := h a b' ha
  obtain ⟨hsteps', hS⟩ := hf a b' hsteps hP c b'' hc
  exact ⟨hsteps.trans hsteps', hS⟩

theorem get_bind {f : Builder → Build β} (h : (f b).Takes R b S) :
    ((get : Build Builder) >>= f).Takes R b S := h

theorem ite {p : Prop} [Decidable p] {yes no : Build α} (hyes : p → yes.Takes R b Q)
    (hno : ¬p → no.Takes R b Q) : (if p then yes else no).Takes R b Q := by
  split
  · exact hyes ‹_›
  · exact hno ‹_›

/-- Elements of a list, one after the other. What is said of an element and its result must survive
    the steps of later ones. -/
theorem mapM {P : α → β → Builder → Prop} {l : List α}
    (stable : ∀ x y b b', ReflTransGen R b b' → P x y b → P x y b')
    (h : ∀ x ∈ l, ∀ b', ReflTransGen R b b' → (f x).Takes R b' (P x)) :
    (l.mapM f).Takes R b fun ys b' => List.Forall₂ (fun x y => P x y b') l ys := by
  induction l generalizing b with
  | nil => exact .pure .nil
  | cons x l ih =>
    rw [List.mapM_cons]
    refine (h x List.mem_cons_self b .refl).bind fun y b₁ hsteps hy => ?_
    refine (ih fun z hz b' hsteps' => h z (List.mem_cons_of_mem x hz) b'
      (hsteps.trans hsteps')).bind fun ys b₂ hsteps₂ hys => ?_
    exact .pure (.cons (stable x y b₁ b₂ hsteps₂ hy) hys)

end Takes

end Build

end ShaderExpr
