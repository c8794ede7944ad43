import ShaderExpr.Fault
import ShaderExpr.Module.LiteralString
import ShaderExpr.Module.Stream
import ShaderExpr.Variable

namespace ShaderExpr

/-- How the entry point of a module is run. -/
inductive ExecutionModel
  | compute | fragment
  deriving DecidableEq, Repr

structure Options where
  model : ExecutionModel := .compute
  /-- Does the module carry the names of its source? -/
  debugNames : Bool := true
  /-- Are constant expressions evaluated instead of emitted? -/
  foldConstants : Bool := true
  deriving DecidableEq, Repr

abbrev Id := UInt32

/-- Storage classes of a module, fewer than those of variables. -/
inductive StorageClass
  | input | uniform | output | priv | function
  deriving DecidableEq, Repr

def StorageClass.number : StorageClass → UInt32
  | input => 1
  | uniform => 2
  | output => 3
  | priv => 6
  | function => 7

def Storage.storageClass : Storage → StorageClass
  | .global => .priv
  | .body | .parameter => .function
  | .input => .input
  | .output => .output
  | .uniform => .uniform

/-- Parts of a module in the order in which they are put together. -/
inductive Section
  /-- Capabilities, imports, memory model, entry point and execution mode. -/
  | header
  | debug
  | decorate
  /-- Types, constants and variables of the module. -/
  | define
  /-- Variables of the body function. -/
  | declare
  | code
  deriving DecidableEq, Repr

def Section.all : List Section := [.header, .debug, .decorate, .define, .declare, .code]

def Section.name : Section → String
  | header => "Header"
  | debug => "Debug"
  | decorate => "Decorate"
  | define => "Define"
  | declare => "Declare"
  | code => "Code"

/-- A module under construction. Types, pointer types, constants and variables are interned: the
    first request defines one, and every later request for the same gets the same id. -/
structure Builder where
  options : Options
  /-- The id that the next request gets. -/
  nextId : Id
  header : List Instruction := []
  debug : List Instruction := []
  decorate : List Instruction := []
  define : List Instruction := []
  declare : List Instruction := []
  code : List Instruction := []
  types : List (Ty × Id) := []
  pointerTypes : List ((Ty × StorageClass) × Id) := []
  values : List ((Ty × List UInt8) × Id) := []
  declared : List (Nat × Id) := []
  /-- Parameters of the body function: their ids and the ids of their types. -/
  parameters : List (Id × Id) := []
  /-- Input and output variables, which the entry point lists. -/
  interface : List Id := []
  /-- The imported set of extended instructions, once it is used. -/
  extendedSet : Option Id := none
  usesDouble : Bool := false

/-- Which of its limits a module is kept to while it is built. A program is compiled under both.
    What it would become without them is what tells when one of them is in the way. -/
class Limits where
  /-- Are instructions refused that have more words than their first word can say? -/
  words : Bool
  /-- Are ids refused when all of them are in use? Without the limit they start over. -/
  ids : Bool

namespace Limits

instance enforced : Limits := ⟨true, true⟩

@[reducible] def ignored : Limits := ⟨false, false⟩

end Limits

/-- A step of building a module. -/
abbrev Build := StateT Builder (Except Fault)

namespace Builder

/-- Nothing is defined yet. The id zero is not valid. -/
def new (options : Options) : Builder := { options, nextId := 1 }

def sectionOf (b : Builder) : Section → List Instruction
  | .header => b.header
  | .debug => b.debug
  | .decorate => b.decorate
  | .define => b.define
  | .declare => b.declare
  | .code => b.code

def append (b : Builder) (s : Section) (i : Instruction) : Builder :=
  match s with
  | .header => { b with header := b.header ++ [i] }
  | .debug => { b with debug := b.debug ++ [i] }
  | .decorate => { b with decorate := b.decorate ++ [i] }
  | .define => { b with define := b.define ++ [i] }
  | .declare => { b with declare := b.declare ++ [i] }
  | .code => { b with code := b.code ++ [i] }

end Builder

namespace Build

/-- An id that was not handed out before. -/
def fresh [Limits] : Build Id := do
  let b ← get
  if Limits.ids ∧ b.nextId = 0xffffffff then throw .idsExhausted
  else
    set { b with nextId := b.nextId + 1 }
    return b.nextId

/-- An instruction whose number of words can be said in its first word. -/
def checked [Limits] (op : Opcode) (operands : List UInt32) : Except Fault Instruction :=
  if Limits.words → operands.length + 1 ≤ Instruction.maxWordCount then .ok ⟨op, operands⟩
  else .error .instructionTooLong

/-- Appends an instruction without a result. -/
def add [Limits] (s : Section) (op : Opcode) (operands : List UInt32) : Build Unit := do
  let i ← checked op operands
  modify (·.append s i)

/-- Names an id for debuggers. -/
def nameId [Limits] (id : Id) (name : String) : Build Unit := do
  if (← get).options.debugNames then
    add .debug .debugName (id :: LiteralString.encode name)

def nameMembers [Limits] (id : Id) (members : List (String × Ty)) : Build Unit := do
  if (← get).options.debugNames then
    members.zipIdx.forM fun ((name, _), i) =>
      add .debug .debugMemberName (id :: UInt32.ofNat i :: LiteralString.encode name)

/-- The id of an interned type, or the one that `definition` gives it. -/
def internType (ty : Ty) (definition : Build Id) : Build Id := do
  match (← get).types.lookup ty with
  | some id => return id
  | none => definition

/-- Defines a type from its opcode and what follows its id. -/
def defineType [Limits] (ty : Ty) (op : Opcode) (operands : List UInt32) : Build Id := do
  let id ← fresh
  add .define op (id :: operands)
  modify fun b => { b with types := (ty, id) :: b.types }
  return id

def scalarTypeId [Limits] (s : ScalarType) : Build Id :=
  internType (.scalar s) do
    match s with
    | .bool => defineType (.scalar s) .typeBool []
    | .float => defineType (.scalar s) .typeFloat [32]
    | .double =>
      modify fun b => { b with usesDouble := true }
      defineType (.scalar s) .typeFloat [64]
    | .int => defineType (.scalar s) .typeInt [32, 1]
    | .uint => defineType (.scalar s) .typeInt [32, 0]

def vectorTypeId [Limits] (s : ScalarType) (n : Dim) : Build Id :=
  internType (.vector s n) do
    let component ← scalarTypeId s
    defineType (.vector s n) .typeVector [component, UInt32.ofNat n.toNat]

def matrixTypeId [Limits] (s : ScalarType) (columns rows : Dim) : Build Id :=
  internType (.matrix s columns rows) do
    let column ← vectorTypeId s rows
    defineType (.matrix s columns rows) .typeMatrix [column, UInt32.ofNat columns.toNat]

mutual
/-- Id of a type. The types it is made of are defined before it. -/
def typeId [Limits] : Ty → Build Id
  | .void => internType .void (defineType .void .typeVoid [])
  | .scalar s => scalarTypeId s
  | .vector s n => vectorTypeId s n
  | .matrix s columns rows => matrixTypeId s columns rows
  | .struct name members =>
    internType (.struct name members) do
      let ids ← memberTypeIds members
      let id ← defineType (.struct name members) .typeStruct ids
      if let some name := name then nameId id name
      nameMembers id members
      return id
def memberTypeIds [Limits] : List (String × Ty) → Build (List Id)
  | [] => return []
  | (_, t) :: rest => do return (← typeId t) :: (← memberTypeIds rest)
end

def pointerTypeId [Limits] (ty : Ty) (storage : Storage) : Build Id := do
  let key := (ty, storage.storageClass)
  match (← get).pointerTypes.lookup key with
  | some id => return id
  | none =>
    let pointee ← typeId ty
    let id ← fresh
    add .define .typePointer [id, storage.storageClass.number, pointee]
    modify fun b => { b with pointerTypes := (key, id) :: b.pointerTypes }
    return id

/-- Appends an instruction with a result of a type. -/
def addResult [Limits] (s : Section) (op : Opcode) (ty : Ty) (operands : List UInt32) :
    Build Id := do
  let type ← typeId ty
  let id ← fresh
  add s op (type :: id :: operands)
  return id

/-- Appends an instruction with a result to the code. -/
def emit [Limits] (op : Opcode) (ty : Ty) (operands : List UInt32) : Build Id :=
  addResult .code op ty operands

/-- The set of extended instructions, which is imported on its first use. -/
def extendedSetId [Limits] : Build Id := do
  match (← get).extendedSet with
  | some id => return id
  | none =>
    let id ← fresh
    modify fun b => { b with extendedSet := some id }
    return id

/-- Appends an extended instruction with a result to the code. -/
def emitExtended [Limits] (ty : Ty) (number : UInt32) (operands : List UInt32) : Build Id := do
  let set ← extendedSetId
  emit .extInst ty (set :: number :: operands)

/-- The id of an interned constant, or the one that `definition` gives it. -/
def internValue (ty : Ty) (data : List UInt8) (definition : Build Id) : Build Id := do
  match (← get).values.lookup (ty, data) with
  | some id => return id
  | none =>
    let id ← definition
    modify fun b => { b with values := ((ty, data), id) :: b.values }
    return id

def scalarId [Limits] (s : ScalarType) (data : List UInt8) : Build Id :=
  internValue (.scalar s) data do
    match Scalar.ofBytes? s data with
    | none => throw (.componentOutOfRange (.scalar s) 0)
    | some (.bool true) => addResult .define .constantTrue (.scalar s) []
    | some (.bool false) => addResult .define .constantFalse (.scalar s) []
    | some x => addResult .define .constant (.scalar s) x.words

/-- Ids of `count` parts of `size` bytes each. -/
def partIds (part : List UInt8 → Build Id) (size : Nat) : Nat → List UInt8 → Build (List Id)
  | 0, _ => return []
  | count + 1, data => do
    return (← part (data.take size)) :: (← partIds part size count (data.drop size))

def vectorId [Limits] (s : ScalarType) (n : Dim) (data : List UInt8) : Build Id :=
  internValue (.vector s n) data do
    let ids ← partIds (scalarId s) s.size n.toNat data
    addResult .define .constantComposite (.vector s n) ids

def matrixId [Limits] (s : ScalarType) (columns rows : Dim) (data : List UInt8) : Build Id :=
  internValue (.matrix s columns rows) data do
    let ids ← partIds (vectorId s rows) (s.size * rows.toNat) columns.toNat data
    addResult .define .constantComposite (.matrix s columns rows) ids

mutual
/-- Id of the constant of a type with the given bytes. Its parts are defined before it. Void has
    no constants. -/
def constantId [Limits] : Ty → List UInt8 → Build Id
  | .void, _ => throw (.noComponents .void)
  | .scalar s, data => scalarId s data
  | .vector s n, data => vectorId s n data
  | .matrix s columns rows, data => matrixId s columns rows data
  | .struct name members, data =>
    internValue (.struct name members) data do
      let ids ← memberIds members data
      addResult .define .constantComposite (.struct name members) ids
def memberIds [Limits] : List (String × Ty) → List UInt8 → Build (List Id)
  | [], _ => return []
  | (_, t) :: rest, data => do
    return (← constantId t (data.take t.size)) :: (← memberIds rest (data.drop t.size))
end

def valueId [Limits] (v : Value) : Build Id := constantId v.ty v.data

def zeroId [Limits] (ty : Ty) : Build Id := valueId (.zero ty)

/-- A constant whose components are all one. -/
def oneId [Limits] (ty : Ty) : Build Id :=
  match ty.component? with
  | none => throw (.noComponents ty)
  | some s => valueId (.ofComponents ty (List.replicate ty.componentCount (.one s)))

/-- Id of the pointer to a variable. Parameters become operands of the body function, and all other
    variables are declared on their first use. -/
def variableId [Limits] (x : Variable) : Build Id := do
  match (← get).declared.lookup x.id with
  | some id => return id
  | none =>
    let storage := x.qualifier.storage
    let pointer ← pointerTypeId x.ty storage
    let id ← fresh
    if x.isParameter then
      modify fun b => { b with parameters := b.parameters ++ [(id, pointer)] }
    else
      let initial ← match x.initial with
        | some value => if storage.canInitialize then pure [← valueId value] else pure []
        | none => pure []
      let place := if storage = .body then Section.declare else .define
      add place .var ([pointer, id, storage.storageClass.number] ++ initial)
      if storage = .input || storage = .output then
        modify fun b => { b with interface := b.interface ++ [id] }
    nameId id x.name
    modify fun b => { b with declared := (x.id, id) :: b.declared }
    return id

/-- Repeats a component over a type. A scalar type needs no repetition. -/
def splat [Limits] (id : Id) (ty : Ty) : Build Id :=
  if ty.isScalar then return id
  else emit .compositeConstruct ty (List.replicate ty.length id)

/-- Conversion of all components at once, between types with different component types. -/
def convertComponents [Limits] (id : Id) (source target : Ty) : Build Id :=
  match source.component?, target.component? with
  | some .bool, _ => do
    let one ← oneId target
    let zero ← zeroId target
    emit .select target [id, one, zero]
  | some .int, some .uint | some .uint, some .int => emit .bitcast target [id]
  | some .int, some .float | some .int, some .double => emit .convertSToF target [id]
  | some .uint, some .float | some .uint, some .double => emit .convertUToF target [id]
  | some .float, some .int | some .double, some .int => emit .convertFToS target [id]
  | some .float, some .uint | some .double, some .uint => emit .convertFToU target [id]
  | some .float, some .double | some .double, some .float => emit .fConvert target [id]
  | some .int, some .bool | some .uint, some .bool => do
    let zero ← zeroId source
    emit .iNotEqual target [id, zero]
  | some .float, some .bool | some .double, some .bool => do
    let zero ← zeroId source
    emit .fUnordNotEqual target [id, zero]
  | _, _ => throw (.noConversion source target)

/-- Conversion to another type of the same shape. -/
def convertPlain [Limits] (id : Id) (source target : Ty) : Build Id :=
  if source = target then return id else convertComponents id source target

/-- Conversion to another type of the same shape. A matrix is converted column by column. -/
def convert [Limits] (id : Id) (source target : Ty) : Build Id :=
  if source = target then return id
  else match source, source.element?, target.element? with
    | .matrix _ columns _, some column, some column' => do
      let converted ← (List.range columns.toNat).mapM fun i => do
        let part ← emit .compositeExtract column [id, UInt32.ofNat i]
        convertPlain part column column'
      emit .compositeConstruct target converted
    | _, _, _ => convertComponents id source target

end Build

end ShaderExpr
