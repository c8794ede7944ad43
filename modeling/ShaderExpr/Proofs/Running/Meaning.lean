import ShaderExpr.Proofs.Running.Machine

namespace ShaderExpr

/-- A datum and the type that it has been given. -/
structure Quantity where
  datum : Datum
  ty : Ty

namespace Machine

open Build

variable (M : Machine)

/-- Result of an operation of a type. -/
def perform (op : Opcode) (ty : Ty) (data : List Datum) (numbers : List UInt32) : Datum :=
  M.apply op ty.bare data numbers

def combined (ty : Ty) (parts : List Datum) : Datum := composed ty.bare parts

def zeroDatum (ty : Ty) : Datum := (Value.zero ty).datum

def oneDatum (ty : Ty) : Datum :=
  match ty.component? with
  | none => .nothing
  | some s => (Value.ofComponents ty (List.replicate ty.componentCount (.one s))).datum

def splat (x : Datum) (ty : Ty) : Datum :=
  if ty.isScalar then x else combined ty (List.replicate ty.length x)

def convertComponents (x : Datum) (source target : Ty) : Datum :=
  match source.component?, target.component? with
  | some .bool, _ => M.perform .select target [x, oneDatum target, zeroDatum target] []
  | some .int, some .uint | some .uint, some .int => M.perform .bitcast target [x] []
  | some .int, some .float | some .int, some .double => M.perform .convertSToF target [x] []
  | some .uint, some .float | some .uint, some .double => M.perform .convertUToF target [x] []
  | some .float, some .int | some .double, some .int => M.perform .convertFToS target [x] []
  | some .float, some .uint | some .double, some .uint => M.perform .convertFToU target [x] []
  | some .float, some .double | some .double, some .float => M.perform .fConvert target [x] []
  | some .int, some .bool | some .uint, some .bool =>
    M.perform .iNotEqual target [x, zeroDatum source] []
  | some .float, some .bool | some .double, some .bool =>
    M.perform .fUnordNotEqual target [x, zeroDatum source] []
  | _, _ => .nothing

def convertPlain (x : Datum) (source target : Ty) : Datum :=
  if source = target then x else M.convertComponents x source target

def convert (x : Datum) (source target : Ty) : Datum :=
  if source = target then x
  else match source, source.element?, target.element? with
    | .matrix _ columns _, some column, some column' =>
      combined target ((List.range columns.toNat).map fun i =>
        M.convertPlain (x.part i) column column')
    | _, _, _ => M.convertComponents x source target

def withComponent (x : Quantity) (s : ScalarType) : Quantity :=
  ⟨M.convert x.datum x.ty (x.ty.withComponent s), x.ty.withComponent s⟩

def broadcast (x : Quantity) (ty : Ty) : Datum :=
  if x.ty.isScalar && ty.isVector then splat x.datum ty else x.datum

def componentwise (op : Opcode) (ty : Ty) (l r : Quantity) : Datum :=
  M.perform op ty [broadcast l ty, broadcast r ty] []

def product (ty : Ty) (l r : Quantity) : Datum :=
  let floating := (ty.component?.map (·.isFloating)).getD false
  let plain := M.componentwise (if floating then .fMul else .iMul) ty l r
  match l.ty, r.ty with
  | .matrix .., .matrix .. => M.perform .matrixTimesMatrix ty [l.datum, r.datum] []
  | .vector .., .matrix .. => M.perform .vectorTimesMatrix ty [l.datum, r.datum] []
  | .matrix .., .vector .. => M.perform .matrixTimesVector ty [l.datum, r.datum] []
  | .matrix .., .scalar _ | .matrix .., .void =>
    M.perform .matrixTimesScalar ty [l.datum, r.datum] []
  | .scalar _, .matrix .. | .void, .matrix .. =>
    M.perform .matrixTimesScalar ty [r.datum, l.datum] []
  | .vector .., .scalar _ | .vector .., .void =>
    if floating then M.perform .vectorTimesScalar ty [l.datum, r.datum] [] else plain
  | .scalar _, .vector .. | .void, .vector .. =>
    if floating then M.perform .vectorTimesScalar ty [r.datum, l.datum] [] else plain
  | _, _ => plain

def columnPart (repeated : Option Datum) (x : Datum) (i : Nat) : Datum :=
  match repeated with
  | some d => d
  | none => x.part i

def repeatedColumn (column : Ty) (x : Quantity) : Option Datum :=
  if x.ty.isScalar then some (splat x.datum column) else none

def perColumn (op : Opcode) (ty : Ty) (l r : Quantity) : Datum :=
  match ty.element? with
  | none => .nothing
  | some column => combined ty ((List.range ty.length).map fun i =>
      M.perform op column [columnPart (repeatedColumn column l) l.datum i,
        columnPart (repeatedColumn column r) r.datum i] [])

def reciprocal (x : Quantity) : Datum :=
  if x.ty.isMatrix then
    match x.ty.element? with
    | none => .nothing
    | some column => combined x.ty ((List.range x.ty.length).map fun i =>
        M.perform .fDiv column [oneDatum column, x.datum.part i] [])
  else M.perform .fDiv x.ty [oneDatum x.ty, x.datum] []

def matrixDivision (ty : Ty) (l r : Quantity) : Datum :=
  let inverse := M.reciprocal r
  if l.ty.isScalar then M.perform .matrixTimesScalar ty [inverse, l.datum] []
  else if r.ty.isScalar then M.perform .matrixTimesScalar ty [l.datum, inverse] []
  else M.perColumn .fMul ty l ⟨inverse, r.ty⟩

/-- What an operation gives whose opcode a table lists. -/
def listed (op : Option Opcode) (f : Opcode → Datum) : Datum := (op.map f).getD .nothing

def arithmetic (op : Operator) (ty : Ty) (l r : Quantity) : Datum :=
  if op = .div ∧ (l.ty.isMatrix || r.ty.isMatrix) then M.matrixDivision ty l r
  else listed (ty.component?.bind (arithmeticOpcode? op)) fun opcode =>
    if ty.isMatrix then M.perColumn opcode ty l r else M.componentwise opcode ty l r

def vectorEquality (equal : Bool) (ty : Ty) (l r : Datum) : Datum :=
  let opcode := equalityOpcode equal ty.component?
  match ty with
  | .vector _ n => M.perform (if equal then .allTrue else .anyTrue) (.scalar .bool)
      [M.perform opcode (.vector .bool n) [l, r] []] []
  | _ => M.perform opcode (.scalar .bool) [l, r] []

def columnsEquality (equal : Bool) (column : Ty) (l r : Datum) : Nat → Nat → Datum → Datum
  | 0, _, sofar => sofar
  | count + 1, i, sofar =>
    let same := M.vectorEquality equal column (l.part i) (r.part i)
    let both :=
      M.perform (if equal then .logicalAnd else .logicalOr) (.scalar .bool) [sofar, same] []
    columnsEquality equal column l r count (i + 1) both

def equality (equal : Bool) (ty : Ty) (l r : Datum) : Datum :=
  match ty with
  | .matrix s columns rows =>
    let column := Ty.vector s rows
    let first := M.vectorEquality equal column (l.part 0) (r.part 0)
    M.columnsEquality equal column l r (columns.toNat - 1) 1 first
  | _ => M.vectorEquality equal ty l r

def shiftAmount (l r : Quantity) : Datum :=
  match l.ty, r.ty.component? with
  | .vector _ n, some s => if r.ty.isScalar then splat r.datum (.vector s n) else r.datum
  | _, _ => r.datum

/-- Both operands in one component type. -/
def inCommon (s : Option ScalarType) (l r : Quantity) (f : Quantity → Quantity → Datum) : Datum :=
  (s.map fun s => f (M.withComponent l s) (M.withComponent r s)).getD .nothing

def binary (op : Operator) (ty : Ty) (l r : Quantity) : Datum :=
  match op.family with
  | .multiplication => M.inCommon ty.component? l r (M.product ty)
  | .arithmetic => M.inCommon ty.component? l r (M.arithmetic op ty)
  | .modulo | .bitwise => M.inCommon ty.component? l r fun l r =>
    listed (ty.component?.bind (integerOpcode? op)) fun opcode => M.componentwise opcode ty l r
  | .shift => M.perform (shiftOpcode op l.ty.component?) ty [l.datum, shiftAmount l r] []
  | .relational =>
    let s := (commonComponent l.ty r.ty).toOption
    M.inCommon s l r fun l r => listed (s.bind (relationOpcode? op)) fun opcode =>
      M.perform opcode (.scalar .bool) [l.datum, r.datum] []
  | .equality => M.inCommon (commonComponent l.ty r.ty).toOption l r fun l r =>
    M.equality (op = .eq) l.ty l.datum r.datum
  | .logical => listed (logicalOpcode? op) fun opcode =>
    M.perform opcode (.scalar .bool) [l.datum, r.datum] []

def negation (x : Quantity) : Datum :=
  let opcode : Opcode := if x.ty.component?.any (·.isFloating) then .fNegate else .sNegate
  if x.ty.isMatrix then
    match x.ty.element? with
    | none => .nothing
    | some column => combined x.ty ((List.range x.ty.length).map fun i =>
        M.perform opcode column [x.datum.part i] [])
  else M.perform opcode x.ty [x.datum] []

def componentData (x : Quantity) : List Datum :=
  match x.ty with
  | .void | .scalar _ => [x.datum]
  | .vector _ n => (List.range n.toNat).map x.datum.part
  | .matrix _ columns rows => (Folding.positions columns.toNat rows.toNat).map fun (column, row) =>
      x.datum.follow [column, row]
  | .struct .. => []

def gather (s : ScalarType) (count : Nat) : List Quantity → List Datum → List Datum
  | [], found => found.take count
  | x :: rest, found =>
    if count ≤ found.length then found.take count
    else gather s count rest (found ++ componentData (M.withComponent x s))

def assemble (ty : Ty) (s : ScalarType) (columns rows : Dim) (component : Nat → Nat → Datum) :
    Datum :=
  combined ty ((List.range columns.toNat).map fun column =>
    combined (.vector s rows) ((List.range rows.toNat).map fun row => component column row))

def constructInOrder (ty : Ty) (s : ScalarType) (arguments : List Quantity) : Datum :=
  let components := M.gather s ty.componentCount arguments []
  match ty with
  | .vector .. => combined ty components
  | .matrix s columns rows => combined ty ((List.range columns.toNat).map fun column =>
      combined (.vector s rows) ((components.drop (column * rows.toNat)).take rows.toNat))
  | _ => components.headD .nothing

def filled (ty : Ty) (value : Datum) : Datum :=
  match ty with
  | .matrix s columns rows => assemble ty s columns rows fun column row =>
      if row = column then value else zeroDatum (.scalar s)
  | _ => splat value ty

def resized (s : ScalarType) (columns rows columns' rows' : Dim) (source : Datum) : Datum :=
  assemble (.matrix s columns rows) s columns rows fun column row =>
    if column < columns'.toNat ∧ row < rows'.toNat then
      source.follow [column, row]
    else if column = row then oneDatum (.scalar s) else zeroDatum (.scalar s)

/-- A value of a basic type with components `s`. -/
def constructOf (ty : Ty) (s : ScalarType) (arguments : List Quantity) : Datum :=
  match arguments with
  | [x] =>
    if x.ty.isScalar then filled ty (M.withComponent x s).datum
    else match ty, x.ty with
      | .matrix s columns rows, .matrix _ columns' rows' =>
        resized s columns rows columns' rows' (M.withComponent x s).datum
      | _, _ => M.constructInOrder ty s arguments
  | _ => M.constructInOrder ty s arguments

def construct (ty : Ty) (arguments : List Quantity) : Datum :=
  (ty.component?.map fun s => M.constructOf ty s arguments).getD .nothing

def selectComponents (x : Datum) (whole ty : Ty) (indexes : List Nat) : Datum :=
  match whole.isScalar, indexes with
  | true, [_] => x
  | true, _ => combined ty (List.replicate indexes.length x)
  | false, [i] => x.part i
  | false, _ => M.perform .vectorShuffle ty [x, x] (indexes.map UInt32.ofNat)

def replaceComponents (whole : Ty) (indexes : List Nat) (current value : Datum) : Datum :=
  match indexes with
  | [i] => M.perform .compositeInsert whole [value, current] [UInt32.ofNat i]
  | _ => M.perform .vectorShuffle whole [current, value]
      ((mergeIndexes whole.length indexes).map UInt32.ofNat)

end Machine

/-- Part of a variable, as a path of members and possibly a selection of components. -/
structure Location where
  variableId : Nat
  path : List Nat
  whole : Ty
  selected : Option (List Nat)

namespace Location

/-- Selects components. Of components selected before, these are chosen from. -/
def select (l : Location) (indexes : List Nat) : Location :=
  { l with selected := some <| match l.selected with
      | none => indexes
      | some current => indexes.map (current.getD · 0) }

/-- Type of what is read from a location and written to it. -/
def ty (l : Location) : Ty :=
  match l.selected with
  | none => l.whole
  | some indexes => Expr.swizzleType l.whole indexes.length

variable (M : Machine) (l : Location) (memory : Nat → Datum)

def wholeDatum : Datum := (memory l.variableId).follow l.path

def read : Datum :=
  match l.selected with
  | none => l.wholeDatum memory
  | some indexes => M.selectComponents (l.wholeDatum memory) l.whole l.ty indexes

/-- The whole after a store. -/
def written (d : Datum) : Datum :=
  match l.selected with
  | none => d
  | some indexes =>
    if l.whole.isScalar then d
    else M.replaceComponents l.whole indexes (l.wholeDatum memory) d

def write (d : Datum) : Nat → Datum :=
  Function.update memory l.variableId
    ((memory l.variableId).replace l.path (l.written M memory d))

end Location

namespace Expr

/-- The location that an expression denotes. Expressions that only have a value denote none. -/
def location? : Expr → Option Location
  | .reference x => some ⟨x.id, [], x.ty, none⟩
  | .member base index => base.location?.map fun l =>
    { l with path := l.path ++ [index], whole := base.ty.memberType index }
  | .swizzle base _ indexes => base.location?.map (·.select indexes)
  | _ => none

variable (M : Machine)

/-- What is stored to a location: a value, or what an operator gives for the contents of the
    location and the value. -/
def assignedDatum (op : Option Operator) (ty : Ty) (l : Location) (memory : Nat → Datum)
    (value : Quantity) : Datum :=
  match op with
  | some op => M.convert (M.binary op ty ⟨l.read M memory, l.ty⟩ value) ty l.ty
  | none => M.convert value.datum value.ty l.ty

/-- What is read from the location of an expression, or else what is computed. -/
def readOr (l : Option Location) (memory : Nat → Datum) (computed : Datum × (Nat → Datum)) :
    Datum × (Nat → Datum) :=
  match l with
  | some l => (l.read M memory, memory)
  | none => computed

mutual
/-- Value of an expression without a location, and what the variables hold behind it. -/
def computed : Expr → (Nat → Datum) → Datum × (Nat → Datum)
  | .constant value, memory => (value.datum, memory)
  | .reference _, memory => (.nothing, memory)
  | .binary op ty left right, memory =>
    let (l, memory) := readOr M left.location? memory (left.computed memory)
    let (r, memory) := readOr M right.location? memory (right.computed memory)
    (M.binary op ty ⟨l, left.ty⟩ ⟨r, right.ty⟩, memory)
  | .assign op ty target value, memory =>
    match target.location? with
    | none => (.nothing, memory)
    | some l =>
      let (v, memory) := readOr M value.location? memory (value.computed memory)
      let stored := assignedDatum M op ty l memory ⟨v, value.ty⟩
      (stored, l.write M memory stored)
  | .negate operand, memory =>
    let (x, memory) := readOr M operand.location? memory (operand.computed memory)
    (M.negation ⟨x, operand.ty⟩, memory)
  | .construct ty arguments, memory =>
    let (ds, memory) := evalAll arguments memory
    (M.construct ty ds, memory)
  | .call f arguments, memory =>
    let (ds, memory) := evalConverted arguments f.parameters memory
    (Machine.combined f.result ds, memory)
  | .member base index, memory =>
    let (x, memory) := readOr M base.location? memory (base.computed memory)
    (x.part index, memory)
  | .swizzle base _ indexes, memory =>
    let (x, memory) := readOr M base.location? memory (base.computed memory)
    (M.selectComponents x base.ty (swizzleType base.ty indexes.length) indexes, memory)
def evalAll : List Expr → (Nat → Datum) → List Quantity × (Nat → Datum)
  | [], memory => ([], memory)
  | e :: rest, memory =>
    let (d, memory) := readOr M e.location? memory (e.computed memory)
    let (ds, memory) := evalAll rest memory
    (⟨d, e.ty⟩ :: ds, memory)
/-- Arguments, each converted to the type of its parameter. -/
def evalConverted : List Expr → List Ty → (Nat → Datum) → List Datum × (Nat → Datum)
  | e :: rest, t :: parameters, memory =>
    let (d, memory) := readOr M e.location? memory (e.computed memory)
    let (ds, memory) := evalConverted rest parameters memory
    (M.convert d e.ty t :: ds, memory)
  | _, _, memory => ([], memory)
end

/-- Value of an expression, and what the variables hold behind it, as functions of data: for each
    function that emits code there is one that says what the code does. Where nothing can be
    emitted, nothing is said of the result. -/
def eval (e : Expr) (memory : Nat → Datum) : Datum × (Nat → Datum) :=
  readOr M e.location? memory (e.computed M memory)

variable {M : Machine} {memory : Nat → Datum}

theorem eval_of_location {e : Expr} {l : Location} (h : e.location? = some l) :
    e.eval M memory = (l.read M memory, memory) := by
  rw [eval, h, readOr]

theorem eval_of_none {e : Expr} (h : e.location? = none) :
    e.eval M memory = e.computed M memory := by
  rw [eval, h, readOr]

theorem computed_constant (value : Value) :
    (constant value).computed M memory = (value.datum, memory) := rfl

theorem computed_reference (x : Variable) :
    (reference x).computed M memory = (.nothing, memory) := rfl

theorem computed_binary (op : Operator) (ty : Ty) (left right : Expr) :
    (binary op ty left right).computed M memory =
      (M.binary op ty ⟨(left.eval M memory).1, left.ty⟩
        ⟨(right.eval M (left.eval M memory).2).1, right.ty⟩,
        (right.eval M (left.eval M memory).2).2) := rfl

theorem computed_assign (op : Option Operator) (ty : Ty) (target value : Expr) :
    (assign op ty target value).computed M memory =
      match target.location? with
      | none => (.nothing, memory)
      | some l =>
        (assignedDatum M op ty l (value.eval M memory).2 ⟨(value.eval M memory).1, value.ty⟩,
          l.write M (value.eval M memory).2
            (assignedDatum M op ty l (value.eval M memory).2
              ⟨(value.eval M memory).1, value.ty⟩)) := rfl

theorem computed_negate (operand : Expr) : (negate operand).computed M memory =
    (M.negation ⟨(operand.eval M memory).1, operand.ty⟩, (operand.eval M memory).2) := rfl

theorem computed_construct (ty : Ty) (arguments : List Expr) :
    (construct ty arguments).computed M memory =
      (M.construct ty (evalAll M arguments memory).1, (evalAll M arguments memory).2) := rfl

theorem computed_call (f : Function) (arguments : List Expr) :
    (call f arguments).computed M memory =
      (Machine.combined f.result (evalConverted M arguments f.parameters memory).1,
        (evalConverted M arguments f.parameters memory).2) := rfl

theorem computed_member (base : Expr) (index : Nat) : (member base index).computed M memory =
    ((base.eval M memory).1.part index, (base.eval M memory).2) := rfl

theorem computed_swizzle (base : Expr) (letters : Letters) (indexes : List Nat) :
    (swizzle base letters indexes).computed M memory =
      (M.selectComponents (base.eval M memory).1 base.ty (swizzleType base.ty indexes.length)
        indexes, (base.eval M memory).2) := rfl

theorem evalAll_nil : evalAll M [] memory = ([], memory) := rfl

theorem evalAll_cons (e : Expr) (rest : List Expr) : evalAll M (e :: rest) memory =
    (⟨(e.eval M memory).1, e.ty⟩ :: (evalAll M rest (e.eval M memory).2).1,
      (evalAll M rest (e.eval M memory).2).2) := rfl

theorem evalConverted_nil (parameters : List Ty) :
    evalConverted M [] parameters memory = ([], memory) := by
  cases parameters <;> rfl

theorem evalConverted_nil_right (es : List Expr) :
    evalConverted M es [] memory = ([], memory) := by
  cases es <;> rfl

theorem evalConverted_cons (e : Expr) (rest : List Expr) (t : Ty) (parameters : List Ty) :
    evalConverted M (e :: rest) (t :: parameters) memory =
      (M.convert (e.eval M memory).1 e.ty t ::
        (evalConverted M rest parameters (e.eval M memory).2).1,
        (evalConverted M rest parameters (e.eval M memory).2).2) := rfl

end Expr

end ShaderExpr
