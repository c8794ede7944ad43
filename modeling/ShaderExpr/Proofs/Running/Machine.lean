import Mathlib.Logic.Function.Basic
import ShaderExpr.Proofs.Build.Composition
import ShaderExpr.Proofs.Collections
import ShaderExpr.Proofs.Module.Ids
import ShaderExpr.Proofs.Running.Datum

namespace ShaderExpr

namespace Ty

mutual
/-- The type as a module says it, where structs and members have no names. -/
def bare : Ty → Ty
  | .struct _ members => .struct none (bareMembers members)
  | ty => ty
def bareMembers : List (String × Ty) → List (String × Ty)
  | [] => []
  | (_, t) :: rest => ("", t.bare) :: bareMembers rest
end

theorem bareMembers_eq (members : List (String × Ty)) :
    bareMembers members = (members.map fun m => m.2.bare).map ("", ·) := by
  induction members with
  | nil => rfl
  | cons m members ih => rw [bareMembers, ih]; rfl

end Ty

/-- Results of operations that nothing is assumed of. All others act as the compiler computes:
    arithmetic component by component or as a product of linear algebra, conversions as explicit
    ones do, and loads and stores along pointers into variables. -/
structure Machine where
  other : Opcode → Ty → List Datum → List UInt32 → Datum

namespace Machine

/-- Arithmetic on two components of one type. -/
def combine? (op : Operator) (x y : Scalar) : Option Scalar := (Folding.combine op x y).toOption

def opposite? (x : Scalar) : Option Scalar := (Folding.opposite x).toOption

/-- Arithmetic component by component. -/
def arithmetic? (op : Operator) (ty : Ty) (x y : Datum) : Option Datum :=
  ty.fill? fun i => do combine? op (← x.cell? i) (← y.cell? i)

/-- Every component times the same one. -/
def scaled? (ty : Ty) (x factor : Datum) : Option Datum :=
  ty.fill? fun i => do combine? .mul (← x.cell? i) (← factor.cell? 0)

/-- Component of a product of linear algebra: the sum over a row of the left factor and a column of
    the right one, from zero on. -/
def contraction? (s : ScalarType) (x y : Datum) (rows inner row column : Nat) : Option Scalar :=
  (List.range inner).foldlM (fun sum k => do
    let term ← combine? .mul (← x.cell? (k * rows + row)) (← y.cell? (column * inner + k))
    combine? .add sum term)
    (Scalar.zero s)

/-- Product of linear algebra with columns of `rows` components, where `inner` is the number of
    columns of the left factor. -/
def product? (ty : Ty) (rows inner : Nat) (x y : Datum) : Option Datum :=
  ty.component?.bind fun s =>
    ty.fill? fun i => contraction? s x y rows inner (i % rows) (i / rows)

def converted? (s : ScalarType) (ty : Ty) (x : Datum) : Option Datum :=
  ty.fill? fun i => (x.cell? i).map (·.convert s)

def isZero (x : Datum) : Bool := x.cells.all fun c => c = .zero c.type

/-- One of two components, as a boolean says. -/
def choose? (condition x y : Scalar) : Option Scalar :=
  match condition with
  | .bool b => some (if b then x else y)
  | _ => none

/-- Vectors are made of all components of the parts. -/
def composed (ty : Ty) (parts : List Datum) : Datum :=
  if ty.isVector then .composite ((parts.flatMap (·.cells)).map .scalar) else .composite parts

/-- What is assumed of an operation, given the data that it is applied to and the numbers behind
    them. -/
def known? (op : Opcode) (ty : Ty) (data : List Datum) (numbers : List UInt32) : Option Datum :=
  match op, data with
  | .fAdd, [x, y] | .iAdd, [x, y] => arithmetic? .add ty x y
  | .fSub, [x, y] | .iSub, [x, y] => arithmetic? .sub ty x y
  | .fMul, [x, y] | .iMul, [x, y] => arithmetic? .mul ty x y
  | .fDiv, [x, y] | .uDiv, [x, y] | .sDiv, [x, y] => arithmetic? .div ty x y
  | .fNegate, [x] | .sNegate, [x] => ty.fill? fun i => do opposite? (← x.cell? i)
  | .vectorTimesScalar, [x, k] | .matrixTimesScalar, [x, k] => scaled? ty x k
  | .matrixTimesMatrix, [x, y] | .matrixTimesVector, [x, y] =>
    product? ty (x.part 0).parts.length x.parts.length x y
  | .vectorTimesMatrix, [x, y] => product? ty 1 x.parts.length x y
  | .convertFToU, [x] | .convertFToS, [x] | .convertSToF, [x] | .convertUToF, [x] | .fConvert, [x]
  | .bitcast, [x] => ty.component?.bind fun s => converted? s ty x
  | .iNotEqual, [x, y] | .fUnordNotEqual, [x, y] =>
    if isZero y then converted? .bool ty x else none
  | .select, [c, x, y] => ty.fill? fun i => do choose? (← c.cell? i) (← x.cell? i) (← y.cell? i)
  | .compositeConstruct, parts => some (composed ty parts)
  | .compositeExtract, [x] => some (x.follow (numbers.map (·.toNat)))
  | .compositeInsert, [part, x] => some (x.replace (numbers.map (·.toNat)) part)
  | .vectorShuffle, [x, y] =>
    ty.fill? fun i => numbers[i]?.bind fun n => (x.cells ++ y.cells)[n.toNat]?
  | _, _ => none

def apply (M : Machine) (op : Opcode) (ty : Ty) (data : List Datum) (numbers : List UInt32) :
    Datum :=
  (known? op ty data numbers).getD (M.other op ty data numbers)

end Machine

/-- A variable and a path into it. -/
structure Pointer where
  base : Id
  path : List Nat

/-- What ids mean, and what variables hold. -/
structure State where
  types : Id → Option Ty
  values : Id → Option Datum
  pointers : Id → Option Pointer
  memory : Id → Option Datum

namespace State

/-- No id has a meaning yet. -/
def start (memory : Id → Option Datum) : State :=
  ⟨fun _ => none, fun _ => none, fun _ => none, memory⟩

def withType (σ : State) (id : Id) (ty : Ty) : State :=
  { σ with types := Function.update σ.types id (some ty) }

def withValue (σ : State) (id : Id) (d : Datum) : State :=
  { σ with values := Function.update σ.values id (some d) }

def withPointer (σ : State) (id : Id) (p : Pointer) : State :=
  { σ with pointers := Function.update σ.pointers id (some p) }

def withContents (σ : State) (id : Id) (d : Datum) : State :=
  { σ with memory := Function.update σ.memory id (some d) }

/-- A variable under its own id. -/
def withVariable (σ : State) (id : Id) (d : Datum) : State :=
  (σ.withContents id d).withPointer id ⟨id, []⟩

/-- What a pointer leads to. -/
def load? (σ : State) (p : Pointer) : Option Datum := (σ.memory p.base).map (·.follow p.path)

def store? (σ : State) (p : Pointer) (d : Datum) : Option State :=
  (σ.memory p.base).map fun whole => σ.withContents p.base (whole.replace p.path d)

/-- The type that an instruction spells behind its id. -/
def readType? (σ : State) (op : Opcode) (operands : List UInt32) : Option Ty :=
  match op, operands with
  | .typeVoid, [] => some .void
  | .typeBool, [] => some (.scalar .bool)
  | .typeFloat, [width] =>
    if width = 32 then some (.scalar .float)
    else if width = 64 then some (.scalar .double)
    else none
  | .typeInt, [_, signed] => some (.scalar (if signed = 1 then .int else .uint))
  | .typeVector, [component, n] => do
    match ← σ.types component, Dim.ofNat? n.toNat with
    | .scalar s, some n => some (.vector s n)
    | _, _ => none
  | .typeMatrix, [column, n] => do
    match ← σ.types column, Dim.ofNat? n.toNat with
    | .vector s rows, some columns => some (.matrix s columns rows)
    | _, _ => none
  | .typeStruct, ids => (ids.mapM σ.types).map fun ts => .struct none (ts.map ("", ·))
  | _, _ => none

/-- The constant of a type that an instruction spells behind its id. -/
def readConstant? (σ : State) (op : Opcode) (ty : Ty) (operands : List UInt32) : Option Datum :=
  match op with
  | .constantTrue => some (.scalar (.bool true))
  | .constantFalse => some (.scalar (.bool false))
  | .constant => do
    match ty with
    | .scalar s => (Scalar.ofWords? s operands).map .scalar
    | _ => none
  | _ => (operands.mapM σ.values).map .composite

/-- A variable, which may be given a value, or a parameter. -/
def declareVariable (σ : State) : List UInt32 → Option State
  | [_, id] | [_, id, _] => some (σ.withPointer id ⟨id, []⟩)
  | [_, id, _, initial] => do
    let d ← σ.values initial
    some ((σ.withPointer id ⟨id, []⟩).withContents id d)
  | _ => none

def loadFrom (σ : State) : List UInt32 → Option State
  | [_, id, pointer] => do
    let p ← σ.pointers pointer
    let d ← σ.load? p
    some (σ.withValue id d)
  | _ => none

def storeTo (σ : State) : List UInt32 → Option State
  | [pointer, value] => do
    let p ← σ.pointers pointer
    let d ← σ.values value
    σ.store? p d
  | _ => none

/-- Goes on from a pointer along a path of constants. -/
def access (σ : State) : List UInt32 → Option State
  | _ :: id :: base :: indexes => do
    let p ← σ.pointers base
    let path ← indexes.mapM fun i => (σ.values i).bind Datum.index?
    some (σ.withPointer id ⟨p.base, p.path ++ path⟩)
  | _ => none

def defineType (σ : State) (op : Opcode) : List UInt32 → Option State
  | id :: operands => (σ.readType? op operands).map (σ.withType id)
  | _ => none

def defineConstant (σ : State) (op : Opcode) : List UInt32 → Option State
  | type :: id :: operands => do
    let ty ← σ.types type
    let d ← σ.readConstant? op ty operands
    some (σ.withValue id d)
  | _ => none

end State

/-- How many operands are data, with numbers behind them. All are when nothing is said. -/
def Opcode.dataCount? : Opcode → Option Nat
  | .compositeExtract => some 1
  | .compositeInsert | .vectorShuffle => some 2
  | _ => none

namespace Machine

/-- An operation of which the result gets an id. -/
def compute (M : Machine) (op : Opcode) (σ : State) : List UInt32 → Option State
  | type :: id :: operands => do
    let count := op.dataCount?.getD operands.length
    let ty ← σ.types type
    let data ← (operands.take count).mapM σ.values
    some (σ.withValue id (M.apply op ty data (operands.drop count)))
  | _ => none

/-- An extended instruction, of which the number stands behind the id of its set. -/
def computeExtended (M : Machine) (σ : State) : List UInt32 → Option State
  | type :: id :: _ :: number :: operands => do
    let ty ← σ.types type
    let data ← operands.mapM σ.values
    some (σ.withValue id (M.other .extInst ty data [number]))
  | _ => none

/-- What an instruction does. Pointer types and what is neither a definition nor a computation do
    nothing. -/
def step (M : Machine) (i : Instruction) (σ : State) : Option State :=
  match i.op with
  | .var | .functionParameter => σ.declareVariable i.operands
  | .load => σ.loadFrom i.operands
  | .store => σ.storeTo i.operands
  | .accessChain => σ.access i.operands
  | .extInst => M.computeExtended σ i.operands
  | .typePointer | .typeFunction => some σ
  | op =>
    if op.isType then σ.defineType op i.operands
    else if op.isConstant then σ.defineConstant op i.operands
    else if op.isComputed then M.compute op σ i.operands
    else some σ

theorem step_load (M : Machine) (operands : List UInt32) (σ : State) :
    M.step ⟨.load, operands⟩ σ = σ.loadFrom operands := rfl

theorem step_store (M : Machine) (operands : List UInt32) (σ : State) :
    M.step ⟨.store, operands⟩ σ = σ.storeTo operands := rfl

theorem step_accessChain (M : Machine) (operands : List UInt32) (σ : State) :
    M.step ⟨.accessChain, operands⟩ σ = σ.access operands := rfl

/-- Runs instructions one after the other. -/
def exec (M : Machine) (is : List Instruction) (σ : State) : Option State :=
  is.foldlM (fun σ i => M.step i σ) σ

/-- Runs all instructions of a module, where variables hold `memory` unless they are given a
    value. -/
def run (M : Machine) (memory : Id → Option Datum) (m : Module) : Option State :=
  M.exec m.instructions (.start memory)

variable {M : Machine} {is js : List Instruction} {i : Instruction} {σ σ' : State}

theorem exec_append : M.exec (is ++ js) σ = (M.exec is σ).bind (M.exec js) :=
  List.foldlM_append

theorem exec_singleton : M.exec [i] σ = M.step i σ := by
  simp [exec]

end Machine

namespace State

/-- What one state has, and what another one has where it has nothing. -/
def or (σ τ : State) : State :=
  ⟨fun id => (σ.types id).or (τ.types id), fun id => (σ.values id).or (τ.values id),
    fun id => (σ.pointers id).or (τ.pointers id), fun id => (σ.memory id).or (τ.memory id)⟩

variable {σ σ' τ : State} {op : Opcode} {operands : List UInt32}

theorem or_update {α : Type} (f g : Id → Option α) (id : Id) (a : α) :
    (fun u => (Function.update f id (some a) u).or (g u)) =
      Function.update (fun u => (f u).or (g u)) id (some a) := by
  funext u
  by_cases h : u = id
  · subst h
    simp
  · simp [Function.update_of_ne h]

theorem withType_or (id : Id) (ty : Ty) : (σ.withType id ty).or τ = (σ.or τ).withType id ty := by
  simp only [or, withType, or_update]

theorem withValue_or (id : Id) (d : Datum) : (σ.withValue id d).or τ = (σ.or τ).withValue id d := by
  simp only [or, withValue, or_update]

theorem withPointer_or (id : Id) (p : Pointer) :
    (σ.withPointer id p).or τ = (σ.or τ).withPointer id p := by
  simp only [or, withPointer, or_update]

theorem withContents_or (id : Id) (d : Datum) :
    (σ.withContents id d).or τ = (σ.or τ).withContents id d := by
  simp only [or, withContents, or_update]

/-- Nothing has a meaning, and no variable holds anything. -/
def blank : State := .start fun _ => none

theorem or_blank : σ.or blank = σ := by
  simp [or, blank, start]

theorem or_update_none {α : Type} {f : Id → Option α} {id : Id} (new : f id = none) (a : α) :
    (fun u => (f u).or (Function.update (fun _ => none) id (some a) u)) =
      Function.update f id (some a) := by
  funext u
  by_cases h : u = id
  · subst h
    simp [new]
  · simp [Function.update_of_ne h]

theorem or_withType {id : Id} (new : σ.types id = none) (ty : Ty) :
    σ.or (blank.withType id ty) = σ.withType id ty := by
  simp [or, withType, blank, start, or_update_none new]

theorem or_withValue {id : Id} (new : σ.values id = none) (d : Datum) :
    σ.or (blank.withValue id d) = σ.withValue id d := by
  simp [or, withValue, blank, start, or_update_none new]

theorem or_withContents {id : Id} (new : σ.memory id = none) (d : Datum) :
    σ.or (blank.withContents id d) = σ.withContents id d := by
  simp [or, withContents, blank, start, or_update_none new]

theorem or_withVariable {id : Id} (pointer : σ.pointers id = none) (memory : σ.memory id = none)
    (d : Datum) : σ.or (blank.withVariable id d) = σ.withVariable id d := by
  simp [or, withVariable, withPointer, withContents, blank, start, or_update_none pointer,
    or_update_none memory]

theorem mapM_types_or {ids : List Id} {ts : List Ty} (h : ids.mapM σ.types = some ts) :
    ids.mapM (σ.or τ).types = some ts :=
  Option.mapM_mono (fun _ _ => Option.or_eq_some) h

theorem mapM_values_or {ids : List Id} {ds : List Datum} (h : ids.mapM σ.values = some ds) :
    ids.mapM (σ.or τ).values = some ds :=
  Option.mapM_mono (fun _ _ => Option.or_eq_some) h

theorem declareVariable_or (h : σ.declareVariable operands = some σ') :
    (σ.or τ).declareVariable operands = some (σ'.or τ) := by
  unfold declareVariable at h
  split at h
  · rw [← Option.some.inj h, withPointer_or]
    rfl
  · rw [← Option.some.inj h, withPointer_or]
    rfl
  · obtain ⟨d, hd, h⟩ := Option.bind_eq_some_iff.mp h
    have hd' : (σ.or τ).values _ = some d := Option.or_eq_some hd
    rw [← Option.some.inj h, withContents_or, withPointer_or]
    simp [declareVariable, hd']
  · simp at h

theorem loadFrom_or (h : σ.loadFrom operands = some σ') :
    (σ.or τ).loadFrom operands = some (σ'.or τ) := by
  unfold loadFrom at h
  split at h
  · obtain ⟨p, hp, h⟩ := Option.bind_eq_some_iff.mp h
    obtain ⟨d, hd, h⟩ := Option.bind_eq_some_iff.mp h
    obtain ⟨whole, hwhole, hpart⟩ := Option.map_eq_some_iff.mp hd
    have hp' : (σ.or τ).pointers _ = some p := Option.or_eq_some hp
    have hwhole' : (σ.or τ).memory p.base = some whole := Option.or_eq_some hwhole
    rw [← Option.some.inj h, withValue_or]
    simp [loadFrom, load?, hp', hwhole', hpart]
  · simp at h

theorem storeTo_or (h : σ.storeTo operands = some σ') :
    (σ.or τ).storeTo operands = some (σ'.or τ) := by
  unfold storeTo at h
  split at h
  · obtain ⟨p, hp, h⟩ := Option.bind_eq_some_iff.mp h
    obtain ⟨d, hd, h⟩ := Option.bind_eq_some_iff.mp h
    obtain ⟨whole, hwhole, rfl⟩ := Option.map_eq_some_iff.mp h
    have hp' : (σ.or τ).pointers _ = some p := Option.or_eq_some hp
    have hd' : (σ.or τ).values _ = some d := Option.or_eq_some hd
    have hwhole' : (σ.or τ).memory p.base = some whole := Option.or_eq_some hwhole
    rw [withContents_or]
    simp [storeTo, store?, hp', hd', hwhole']
  · simp at h

theorem access_or (h : σ.access operands = some σ') :
    (σ.or τ).access operands = some (σ'.or τ) := by
  unfold access at h
  split at h
  · obtain ⟨p, hp, h⟩ := Option.bind_eq_some_iff.mp h
    obtain ⟨path, hpath, h⟩ := Option.bind_eq_some_iff.mp h
    have hp' : (σ.or τ).pointers _ = some p := Option.or_eq_some hp
    have hpath' := Option.mapM_mono (g := fun i => ((σ.or τ).values i).bind Datum.index?)
      (fun i n hn => by
        obtain ⟨d, hd, hn⟩ := Option.bind_eq_some_iff.mp hn
        rw [show (σ.or τ).values i = some d from Option.or_eq_some hd]
        exact hn) hpath
    rw [← Option.some.inj h, withPointer_or]
    simp [access, hp', hpath']
  · simp at h

theorem readType?_or {ty : Ty} (h : σ.readType? op operands = some ty) :
    (σ.or τ).readType? op operands = some ty := by
  have htypes {id : Id} {t : Ty} (ht : σ.types id = some t) : (σ.or τ).types id = some t :=
    Option.or_eq_some ht
  unfold readType? at h ⊢
  split at h
  · exact h
  · exact h
  · exact h
  · exact h
  · obtain ⟨t, ht, h⟩ := Option.bind_eq_some_iff.mp h
    exact Option.bind_eq_some_iff.mpr ⟨t, htypes ht, h⟩
  · obtain ⟨t, ht, h⟩ := Option.bind_eq_some_iff.mp h
    exact Option.bind_eq_some_iff.mpr ⟨t, htypes ht, h⟩
  · obtain ⟨ts, hts, rfl⟩ := Option.map_eq_some_iff.mp h
    exact Option.map_eq_some_iff.mpr ⟨ts, mapM_types_or hts, rfl⟩
  · simp at h

theorem defineType_or (h : σ.defineType op operands = some σ') :
    (σ.or τ).defineType op operands = some (σ'.or τ) := by
  unfold defineType at h
  split at h
  · obtain ⟨ty, hty, rfl⟩ := Option.map_eq_some_iff.mp h
    rw [withType_or]
    simp [defineType, readType?_or hty]
  · simp at h

theorem readConstant?_or {ty : Ty} {d : Datum} (h : σ.readConstant? op ty operands = some d) :
    (σ.or τ).readConstant? op ty operands = some d := by
  unfold readConstant? at h ⊢
  split at h
  · exact h
  · exact h
  · exact h
  · obtain ⟨ds, hds, rfl⟩ := Option.map_eq_some_iff.mp h
    exact Option.map_eq_some_iff.mpr ⟨ds, mapM_values_or hds, rfl⟩

theorem defineConstant_or (h : σ.defineConstant op operands = some σ') :
    (σ.or τ).defineConstant op operands = some (σ'.or τ) := by
  unfold defineConstant at h
  split at h
  · obtain ⟨ty, hty, h⟩ := Option.bind_eq_some_iff.mp h
    obtain ⟨d, hd, h⟩ := Option.bind_eq_some_iff.mp h
    have hty' : (σ.or τ).types _ = some ty := Option.or_eq_some hty
    rw [← Option.some.inj h, withValue_or]
    simp [defineConstant, hty', readConstant?_or hd]
  · simp at h

end State

namespace Machine

variable {M : Machine} {is js : List Instruction} {i : Instruction} {σ σ' τ : State} {op : Opcode}
  {operands : List UInt32}

theorem compute_or (h : M.compute op σ operands = some σ') :
    M.compute op (σ.or τ) operands = some (σ'.or τ) := by
  unfold compute at h
  split at h
  · obtain ⟨ty, hty, h⟩ := Option.bind_eq_some_iff.mp h
    obtain ⟨data, hdata, h⟩ := Option.bind_eq_some_iff.mp h
    have hty' : (σ.or τ).types _ = some ty := Option.or_eq_some hty
    rw [← Option.some.inj h, State.withValue_or]
    simp [compute, hty', State.mapM_values_or hdata]
  · simp at h

theorem computeExtended_or (h : M.computeExtended σ operands = some σ') :
    M.computeExtended (σ.or τ) operands = some (σ'.or τ) := by
  unfold computeExtended at h
  split at h
  · obtain ⟨ty, hty, h⟩ := Option.bind_eq_some_iff.mp h
    obtain ⟨data, hdata, h⟩ := Option.bind_eq_some_iff.mp h
    have hty' : (σ.or τ).types _ = some ty := Option.or_eq_some hty
    rw [← Option.some.inj h, State.withValue_or]
    simp [computeExtended, hty', State.mapM_values_or hdata]
  · simp at h

theorem step_or (h : M.step i σ = some σ') : M.step i (σ.or τ) = some (σ'.or τ) := by
  unfold step at h ⊢
  split at h
  · exact State.declareVariable_or h
  · exact State.declareVariable_or h
  · exact State.loadFrom_or h
  · exact State.storeTo_or h
  · exact State.access_or h
  · exact computeExtended_or h
  · rw [Option.some.inj h]
  · rw [Option.some.inj h]
  · split at h
    · rename_i htype
      rw [if_pos htype]
      exact State.defineType_or h
    split at h
    · rename_i htype hconstant
      rw [if_neg htype, if_pos hconstant]
      exact State.defineConstant_or h
    split at h
    · rename_i htype hconstant hcomputed
      rw [if_neg htype, if_neg hconstant, if_pos hcomputed]
      exact compute_or h
    · rename_i htype hconstant hcomputed
      rw [if_neg htype, if_neg hconstant, if_neg hcomputed, Option.some.inj h]

/-- Code that runs in a state runs where more has a meaning. -/
theorem exec_or (h : M.exec is σ = some σ') : M.exec is (σ.or τ) = some (σ'.or τ) := by
  induction is generalizing σ with
  | nil => exact congrArg (some ·) (congrArg (State.or · τ) (Option.some.inj h))
  | cons i is ih =>
    obtain ⟨σ₁, hstep, h⟩ := Option.bind_eq_some_iff.mp h
    exact Option.bind_eq_some_iff.mpr ⟨_, step_or hstep, ih h⟩

/-- One more instruction among others, with a state that it needs in front of it and one that it
    leads to. -/
theorem exec_insert (before : State) (h : M.exec (is ++ js) σ = some σ')
    (hstep : ∀ ψ, M.exec is σ = some ψ → M.exec js ψ = some σ' →
      M.step i (ψ.or before) = some (ψ.or τ)) :
    M.exec (is ++ i :: js) (σ.or before) = some (σ'.or τ) := by
  rw [exec_append] at h
  obtain ⟨ψ, his, hjs⟩ := Option.bind_eq_some_iff.mp h
  rw [exec_append, exec_or his, Option.bind_some, ← List.singleton_append, exec_append,
    exec_singleton, hstep ψ his hjs, Option.bind_some, exec_or hjs]

end Machine

end ShaderExpr
