import ShaderExpr.Expr
import ShaderExpr.Module.Builder

namespace ShaderExpr

/-- A variable, a path of struct members into it, and possibly a selection of components of what the
    path leads to. -/
structure Place where
  variableId : Id
  storage : Storage
  /-- Ids of the constants that index the members. -/
  indexes : List Id
  /-- Type of what the indexes lead to. -/
  whole : Ty
  /-- Selected components of it. -/
  selected : Option (List Nat)
  deriving DecidableEq, Repr

namespace Place

/-- Type of what a load gives and a store takes. -/
def ty? (p : Place) : Except Fault Ty :=
  match p.selected with
  | none => .ok p.whole
  | some indexes =>
    match p.whole.component? with
    | none => if indexes.length = 1 then .ok .void else .error .invalidSwizzle
    | some s =>
      match Ty.ofComponents? s indexes.length with
      | some t => .ok t
      | none => .error .invalidSwizzle

/-- Selects components. Of components selected before, these are chosen from. -/
def select (p : Place) (indexes : List Nat) : Except Fault Place :=
  match p.selected with
  | none => .ok { p with selected := some indexes }
  | some current =>
    match indexes.mapM (current[·]?) with
    | some composed => .ok { p with selected := some composed }
    | none => .error .invalidSwizzle

end Place

namespace Build

/-- The place of a whole variable. -/
def placeOf [Limits] (x : Variable) : Build Place := do
  let id ← variableId x
  return ⟨id, x.qualifier.storage, [], x.ty, none⟩

/-- Goes on to member `index`, which has type `ty`. -/
def memberPlace [Limits] (p : Place) (index : Nat) (ty : Ty) : Build Place := do
  if p.selected.isSome then throw .indexedSwizzle
  else
    let id ← valueId (.ofScalar (.int (Int32.ofNat index)))
    return { p with indexes := p.indexes ++ [id], whole := ty }

/-- Pointer to the whole that the indexes lead to. -/
def pointer [Limits] (p : Place) : Build Id := do
  if p.indexes.isEmpty then return p.variableId
  else
    let type ← pointerTypeId p.whole p.storage
    let id ← fresh
    add .code .accessChain (type :: id :: p.variableId :: p.indexes)
    return id

/-- Components `indexes` of a value, as a value of type `ty`. A scalar has the same component
    everywhere. -/
def selectComponents [Limits] (id : Id) (whole ty : Ty) (indexes : List Nat) : Build Id :=
  match whole.isScalar, indexes with
  | true, [_] => return id
  | true, _ => emit .compositeConstruct ty (List.replicate indexes.length id)
  | false, [i] => emit .compositeExtract ty [id, UInt32.ofNat i]
  | false, _ => emit .vectorShuffle ty (id :: id :: indexes.map UInt32.ofNat)

def load [Limits] (p : Place) : Build Id := do
  let pointer ← pointer p
  let loaded ← emit .load p.whole [pointer]
  match p.selected with
  | none => return loaded
  | some indexes => selectComponents loaded p.whole (← p.ty?) indexes

/-- Components of a whole of `length` components after a store to `indexes`: those selected come
    from the stored value, whose components are counted behind the old ones. -/
def mergeIndexes (length : Nat) (indexes : List Nat) : List Nat :=
  (List.range length).map fun c =>
    match indexes.findIdx? (· = c) with
    | some position => length + position
    | none => c

/-- The whole `current` with selected components replaced by those of `value`. -/
def replaceComponents [Limits] (whole : Ty) (indexes : List Nat) (current value : Id) : Build Id :=
  match indexes with
  | [i] => emit .compositeInsert whole [value, current, UInt32.ofNat i]
  | _ => emit .vectorShuffle whole
      (current :: value :: (mergeIndexes whole.length indexes).map UInt32.ofNat)

/-- What is written to the pointer when a value is stored. A selection is stored by reading the
    whole and replacing components of it. -/
def storedWhole [Limits] (p : Place) (pointer value : Id) : Build Id :=
  match p.selected with
  | none => return value
  | some indexes =>
    if p.whole.isScalar then return value
    else do
      let current ← emit .load p.whole [pointer]
      replaceComponents p.whole indexes current value

/-- Stores a value of the type of the place. -/
def store [Limits] (p : Place) (value : Id) : Build Unit := do
  let pointer ← pointer p
  let stored ← storedWhole p pointer value
  add .code .store [pointer, stored]

end Build

end ShaderExpr
