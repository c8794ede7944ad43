import ShaderExpr.ScalarType

namespace ShaderExpr

/-- Extent of a vector or of one side of a matrix. -/
inductive Dim
  | two | three | four
  deriving DecidableEq, Repr

namespace Dim

def all : List Dim := [.two, .three, .four]

def toNat : Dim → Nat
  | .two => 2
  | .three => 3
  | .four => 4

def ofNat? : Nat → Option Dim
  | 2 => some .two
  | 3 => some .three
  | 4 => some .four
  | _ => none

end Dim

/-- A type. Matrices are stored by columns. A struct without a name can only be written where it
    is used. -/
inductive Ty
  | void
  | scalar (component : ScalarType)
  | vector (component : ScalarType) (length : Dim)
  | matrix (component : ScalarType) (columns rows : Dim)
  | struct (name : Option String) (members : List (String × Ty))
  deriving Repr, Inhabited

namespace Ty

mutual
/-- Are two types the same? Structs are compared by name and members. -/
def same : Ty → Ty → Bool
  | .void, .void => true
  | .scalar s, .scalar t => s = t
  | .vector s m, .vector t n => s = t ∧ m = n
  | .matrix s c r, .matrix t d q => s = t ∧ c = d ∧ r = q
  | .struct m ms, .struct n ns => m = n && sameMembers ms ns
  | _, _ => false
def sameMembers : List (String × Ty) → List (String × Ty) → Bool
  | [], [] => true
  | (m, t) :: ms, (n, u) :: ns => m = n && same t u && sameMembers ms ns
  | _, _ => false
end

mutual
theorem eq_of_same : ∀ {t u : Ty}, same t u = true → t = u
  | .void, .void, _ => rfl
  | .scalar _, .scalar _, h => by simp_all [same]
  | .vector .., .vector .., h => by simp_all [same]
  | .matrix .., .matrix .., h => by simp_all [same]
  | .struct .., .struct .., h => by
    simp only [same, Bool.and_eq_true, decide_eq_true_eq] at h
    rw [h.1, eq_of_sameMembers h.2]
  | .void, .scalar _, h | .void, .vector .., h | .void, .matrix .., h | .void, .struct .., h
  | .scalar _, .void, h | .scalar _, .vector .., h | .scalar _, .matrix .., h
  | .scalar _, .struct .., h | .vector .., .void, h | .vector .., .scalar _, h
  | .vector .., .matrix .., h | .vector .., .struct .., h | .matrix .., .void, h
  | .matrix .., .scalar _, h | .matrix .., .vector .., h | .matrix .., .struct .., h
  | .struct .., .void, h | .struct .., .scalar _, h | .struct .., .vector .., h
  | .struct .., .matrix .., h => by simp [same] at h
theorem eq_of_sameMembers : ∀ {ms ns : List (String × Ty)}, sameMembers ms ns = true → ms = ns
  | [], [], _ => rfl
  | (_, _) :: _, (_, _) :: _, h => by
    simp only [sameMembers, Bool.and_eq_true, decide_eq_true_eq] at h
    rw [h.1.1, eq_of_same h.1.2, eq_of_sameMembers h.2]
  | [], _ :: _, h | _ :: _, [], h => by simp [sameMembers] at h
end

mutual
theorem same_self : ∀ t : Ty, same t t = true
  | .void => rfl
  | .scalar _ | .vector .. | .matrix .. => by simp [same]
  | .struct _ ms => by simp [same, sameMembers_self ms]
theorem sameMembers_self : ∀ ms : List (String × Ty), sameMembers ms ms = true
  | [] => rfl
  | (_, t) :: ms => by simp [sameMembers, same_self t, sameMembers_self ms]
end

instance : DecidableEq Ty := fun t u =>
  if h : same t u then .isTrue (eq_of_same h) else .isFalse fun e => h (e ▸ same_self t)

/-- The vector of that many components, or their scalar when there is one. -/
def ofComponents? (component : ScalarType) (count : Nat) : Option Ty :=
  if count = 1 then some (.scalar component) else (Dim.ofNat? count).map (.vector component)

def isVoid : Ty → Bool
  | .void => true
  | _ => false

/-- A single component, or none at all: void counts as a scalar. -/
def isScalar : Ty → Bool
  | .void | .scalar _ => true
  | _ => false

def isVector : Ty → Bool
  | .vector .. => true
  | _ => false

def isMatrix : Ty → Bool
  | .matrix .. => true
  | _ => false

def isStruct : Ty → Bool
  | .struct .. => true
  | _ => false

/-- Scalars, vectors and matrices. -/
def isBasic : Ty → Bool
  | .scalar _ | .vector .. | .matrix .. => true
  | _ => false

/-- Type of the components of a basic type. -/
def component? : Ty → Option ScalarType
  | .scalar s | .vector s _ | .matrix s _ _ => some s
  | _ => none

/-- Number of elements that indexing reaches: components of a vector, columns of a matrix. -/
def length : Ty → Nat
  | .vector _ n => n.toNat
  | .matrix _ columns _ => columns.toNat
  | _ => 0

/-- Number of components of a basic type. Structs have none in this sense. -/
def componentCount : Ty → Nat
  | .scalar _ => 1
  | .vector _ n => n.toNat
  | .matrix _ columns rows => columns.toNat * rows.toNat
  | _ => 0

/-- Type of an element that indexing reaches. -/
def element? : Ty → Option Ty
  | .vector s _ => some (.scalar s)
  | .matrix s _ rows => some (.vector s rows)
  | _ => none

/-- Distance in bytes between neighbouring elements. -/
def stride : Ty → Nat
  | .vector s _ => s.size
  | .matrix s _ rows => s.size * rows.toNat
  | _ => 0

mutual
/-- Size in bytes. Members of a struct are packed. -/
def size : Ty → Nat
  | .void => 0
  | .scalar s => s.size
  | .vector s n => s.size * n.toNat
  | .matrix s columns rows => s.size * (columns.toNat * rows.toNat)
  | .struct _ members => membersSize members
def membersSize : List (String × Ty) → Nat
  | [] => 0
  | (_, t) :: rest => t.size + membersSize rest
end

mutual
/-- Does a value of this type have components all through? Void has none. -/
def isComplete : Ty → Bool
  | .void => false
  | .struct _ members => membersComplete members
  | _ => true
def membersComplete : List (String × Ty) → Bool
  | [] => true
  | (_, t) :: rest => t.isComplete && membersComplete rest
end

/-- The same shape over another component type. Structs have no component type to replace. -/
def withComponent (t : Ty) (s : ScalarType) : Ty :=
  match t with
  | .void | .scalar _ => .scalar s
  | .vector _ n => .vector s n
  | .matrix _ columns rows => .matrix s columns rows
  | .struct name members => .struct name members

/-- Implicit conversion keeps the shape and may only widen the component type. -/
def convertsTo : Ty → Ty → Bool
  | .scalar s, .scalar t => s.convertsTo t
  | .vector s m, .vector t n => m = n && s.convertsTo t
  | .matrix s c r, .matrix t d q => c = d && r = q && s.convertsTo t
  | .struct m ms, .struct n ns => (Ty.struct m ms) = .struct n ns
  | _, _ => false

def members : Ty → List (String × Ty)
  | .struct _ members => members
  | _ => []

/-- Position of the first member of that name. -/
def memberIndex? (t : Ty) (name : String) : Option Nat :=
  t.members.findIdx? (·.1 = name)

/-- Type of a member. There is no other member type to give outside of a struct than void. -/
def memberType (t : Ty) (index : Nat) : Ty :=
  (t.members[index]?).elim .void (·.2)

/-- Bytes in front of a member. -/
def memberOffset (t : Ty) (index : Nat) : Nat :=
  membersSize (t.members.take index)

mutual
/-- Name of a type, or its definition when it has none. -/
def text : Ty → String
  | .void => "void"
  | .scalar s => s.name
  | .vector s n => s.letter ++ "vec" ++ toString n.toNat
  | .matrix s columns rows =>
    let sides := if columns = rows then toString columns.toNat
      else toString columns.toNat ++ "x" ++ toString rows.toNat
    s.letter ++ "mat" ++ sides
  | .struct (some name) _ => name
  | .struct none members => "struct \x7b " ++ membersText members ++ "\x7d"
def membersText : List (String × Ty) → String
  | [] => ""
  | (name, t) :: rest => t.text ++ " " ++ name ++ "; " ++ membersText rest
end

end Ty

end ShaderExpr
