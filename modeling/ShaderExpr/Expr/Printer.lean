import ShaderExpr.Expr

namespace ShaderExpr.Expr

/-- Binding strengths beside those of the binary operators. -/
def assignmentBinding : Nat := 1
def unaryBinding : Nat := 13
def postfixBinding : Nat := 14

/-- How tightly an expression holds together. A negative constant is a unary minus. -/
def binding : Expr → Nat
  | assign .. => assignmentBinding
  | binary op .. => op.precedence
  | negate _ => unaryBinding
  | constant value => if value.text.toList.head? = some '-' then unaryBinding else postfixBinding
  | _ => postfixBinding

def parenthesized (text : String) : String := "(" ++ text ++ ")"

/-- Text of an expression in a place that asks for a binding strength. -/
def placed (e : Expr) (text : String) (strength : Nat) : String :=
  if e.binding < strength then parenthesized text else text

mutual
/-- Source text of an expression. Parentheses stand only where an expression binds weaker than its
    place asks for. Two minus signs are kept apart, as together they would be a decrement. -/
def print : Expr → String
  | constant value => value.text
  | reference x => x.name
  | binary op _ left right =>
    left.placed left.print op.precedence ++ " " ++ op.text ++ " " ++
      right.placed right.print (op.precedence + 1)
  | assign op _ target value =>
    target.placed target.print postfixBinding ++ " " ++ op.elim "" Operator.text ++ "= " ++
      value.placed value.print assignmentBinding
  | negate operand =>
    "-" ++ if operand.binding = unaryBinding then parenthesized operand.print
      else operand.placed operand.print unaryBinding
  | construct ty arguments => ty.text ++ parenthesized (", ".intercalate (printAll arguments))
  | call f arguments => f.name ++ parenthesized (", ".intercalate (printAll arguments))
  | member base index =>
    base.placed base.print postfixBinding ++ "." ++ (base.ty.members[index]?).elim "" (·.1)
  | swizzle base letters indexes =>
    base.placed base.print postfixBinding ++ "." ++ String.ofList (indexes.map letters.letter)
def printAll : List Expr → List String
  | [] => []
  | e :: rest => e.placed e.print assignmentBinding :: printAll rest
end

end ShaderExpr.Expr
