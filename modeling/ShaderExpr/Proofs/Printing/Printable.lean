import ShaderExpr.Expr.Printer
import ShaderExpr.Proofs.Printing.Literals
import ShaderExpr.Proofs.Printing.TypeSpelling
import ShaderExpr.Proofs.Value.Bytes

namespace ShaderExpr

namespace Phrase

/-- Phrases between commas. -/
def separated : List Kinds → Kinds
  | [] => []
  | [ks] => ks
  | ks :: us :: rest => ks ++ .control ',' :: separated (us :: rest)

end Phrase

namespace Expr

/-- Tokens of an expression in a place that asks for a binding strength. -/
def placedKinds (e : Expr) (ks : Phrase.Kinds) (strength : Nat) : Phrase.Kinds :=
  if e.binding < strength then Phrase.enclosed ks else ks

mutual
/-- Kinds of the tokens that a tree is printed as. -/
def kinds : Expr → Phrase.Kinds
  | constant value => value.components.map .literal
  | reference x => [.ident x.name]
  | binary op _ left right =>
    left.placedKinds left.kinds op.precedence ++
      op.token :: right.placedKinds right.kinds (op.precedence + 1)
  | assign op _ target value =>
    target.placedKinds target.kinds postfixBinding ++
      assignmentToken op :: value.placedKinds value.kinds assignmentBinding
  | negate operand =>
    .control '-' :: if operand.binding = unaryBinding then Phrase.enclosed operand.kinds
      else operand.placedKinds operand.kinds unaryBinding
  | construct ty arguments => ty.kinds ++ Phrase.enclosed (Phrase.separated (kindsAll arguments))
  | call (.builtin f) arguments =>
    .ident f.builtin.name :: Phrase.enclosed (Phrase.separated (kindsAll arguments))
  | call (.constructor ty) arguments =>
    ty.kinds ++ Phrase.enclosed (Phrase.separated (kindsAll arguments))
  | member base index =>
    base.placedKinds base.kinds postfixBinding ++
      [.control '.', .ident ((base.ty.members[index]?).elim "" (·.1))]
  | swizzle base letters indexes =>
    base.placedKinds base.kinds postfixBinding ++
      [.control '.', .ident (String.ofList (indexes.map letters.letter))]
def kindsAll : List Expr → List Phrase.Kinds
  | [] => []
  | e :: rest => e.placedKinds e.kinds assignmentBinding :: kindsAll rest
end

mutual
/-- Every node passes the check of its rule, and can be written with the names of a scope. The
    tokens that such a tree is printed as are derived from the grammar with this tree. -/
inductive Printable (s : Scope) : Expr → Prop
  | constant {x : Scalar} (plain : x.IsPlain) : Printable s (.constant (.ofScalar x))
  | reference {x : Variable} (name : IsIdentifier x.name) (noType : s.typeNamed x.name = none)
    (noFunction : s.hasFunction x.name = false) (found : s.variableNamed x.name = some x) :
    Printable s (.reference x)
  | binary {op : Operator} {ty : Ty} {left right : Expr} (left_ok : Printable s left)
    (right_ok : Printable s right) (typed : op.resultType left.ty right.ty = .ok ty) :
    Printable s (.binary op ty left right)
  | assign {op : Option Operator} {ty : Ty} {target value : Expr} (target_ok : Printable s target)
    (value_ok : Printable s value) (sign : (assignmentToken op).assignment? = some op)
    (place : target.isAssignable)
    (writable : ∀ x, target.assigned? = some x → x.qualifier.isReadOnly = false)
    (typed : Reader.assignedType op target.ty value.ty = .ok ty)
    (fits : ty.convertsTo target.ty) : Printable s (.assign op ty target value)
  | negate {operand : Expr} (operand_ok : Printable s operand) (basic : operand.ty.isBasic)
    (number : operand.ty.component? ≠ some .bool) : Printable s (.negate operand)
  | construct {ty : Ty} {es : List Expr} (arguments_ok : AllPrintable s es) (type : ty.Written s)
    (basic : ty.isBasic) (filled : ty.FilledBy (es.map Expr.ty)) : Printable s (.construct ty es)
  | builtin {f : Signature} {es : List Expr} (arguments_ok : AllPrintable s es)
    (name : IsIdentifier f.builtin.name) (noType : s.typeNamed f.builtin.name = none)
    (isFunction : s.hasFunction f.builtin.name)
    (resolved : Candidates.resolve? (s.functions f.builtin.name) (es.map Expr.ty) =
      some (.builtin f)) : Printable s (.call (.builtin f) es)
  | make {ty : Ty} {es : List Expr} (arguments_ok : AllPrintable s es) (type : ty.Written s)
    (struct : ty.isStruct)
    (resolved : Candidates.resolve? [.constructor ty] (es.map Expr.ty) = some (.constructor ty)) :
    Printable s (.call (.constructor ty) es)
  | member {base : Expr} {name : String} {index : Nat} (base_ok : Printable s base)
    (identifier : IsIdentifier name) (found : base.ty.memberIndex? name = some index) :
    Printable s (.member base index)
  | swizzle {base : Expr} {name : String} {letters : Letters} {indexes : List Nat}
    (base_ok : Printable s base) (noInt : ∀ n, base ≠ .constant (.ofScalar (.int n)))
    (identifier : IsIdentifier name)
    (shape : (∃ s, base.ty = .scalar s) ∨ ∃ s n, base.ty = .vector s n)
    (spelled : name.toList.mapM letters.index? = some indexes) (some : indexes ≠ [])
    (few : indexes.length ≤ 4) (inside : ∀ i ∈ indexes, i < max base.ty.length 1) :
    Printable s (.swizzle base letters indexes)
inductive AllPrintable (s : Scope) : List Expr → Prop
  | nil : AllPrintable s []
  | cons {e : Expr} {es : List Expr} (first : Printable s e) (rest : AllPrintable s es) :
    AllPrintable s (e :: es)
end

end Expr

namespace Letters

/-- The letters of a selection are found again from its components. -/
theorem map_letter {letters : Letters} {name : List Char} {indexes : List Nat}
    (h : name.mapM letters.index? = some indexes) : indexes.map letters.letter = name := by
  induction name generalizing indexes with
  | nil =>
    obtain rfl : [] = indexes := by simpa using h
    rfl
  | cons c name ih =>
    rw [List.mapM_cons, Option.bind_eq_bind, Option.bind_eq_some_iff] at h
    obtain ⟨i, hi, h⟩ := h
    simp only [Option.bind_eq_bind, Option.bind_eq_some_iff, Option.pure_def,
      Option.some.injEq] at h
    obtain ⟨rest, hrest, rfl⟩ := h
    obtain ⟨hlt, hc, -⟩ := List.findIdx?_eq_some_iff_getElem.mp hi
    have hletter : letters.letter i = c := by
      rw [letter, List.getElem?_eq_getElem hlt]
      exact of_decide_eq_true hc
    rw [List.map_cons, hletter, ih hrest]

end Letters

/-- The member that a name finds has that name. -/
theorem Ty.name_of_memberIndex? {ty : Ty} {name : String} {index : Nat}
    (h : ty.memberIndex? name = some index) : (ty.members[index]?).elim "" (·.1) = name := by
  obtain ⟨hlt, hname, -⟩ := List.findIdx?_eq_some_iff_getElem.mp h
  rw [List.getElem?_eq_getElem hlt]
  exact of_decide_eq_true hname

end ShaderExpr
