import ShaderExpr.Grammar.Expression

namespace ShaderExpr

/-- The one function that the types of all arguments leave of a list of candidates. -/
def Candidates.resolve? (functions : List Function) (types : List Ty) : Option Function :=
  let narrow (c : Candidates) (argument : Ty × Nat) := c.takeArgument argument.2 argument.1
  ((types.zipIdx.foldl narrow (ofFunctions functions)).takeCount types.length).choice?

/-- Number of components of values of these types together. -/
def Ty.totalCount : List Ty → Nat
  | [] => 0
  | t :: types => t.componentCount + totalCount types

/-- Do the components of arguments fill a type? One scalar fills any, one matrix any matrix, and
    all other arguments must have as many components as the type, up to those of the last. -/
def Ty.FilledBy (ty : Ty) (types : List Ty) : Prop :=
  (∃ s, types = [.scalar s] ∧ 0 < ty.componentCount) ∨
  (∃ t, types = [t] ∧ t.isMatrix ∧ ty.isMatrix) ∨
  ((∀ t ∈ types, t.isBasic ∧ ¬(t.isMatrix ∧ ty.isMatrix)) ∧
    ty.componentCount ≤ totalCount types ∧
    (types ≠ [] → totalCount types.dropLast < ty.componentCount))

namespace Phrase

/-- Kinds of the tokens of a phrase. -/
abbrev Kinds := List Token.Kind

/-- Tokens between parentheses. -/
def enclosed (ks : Kinds) : Kinds := .control '(' :: (ks ++ [.control ')'])

/-- Names between commas. -/
inductive MemberNames : Kinds → List String → Prop
  | one (name : String) : MemberNames [.ident name] [name]
  | more {ks : Kinds} {names : List String} (name : String) (rest : MemberNames ks names) :
    MemberNames (.ident name :: .control ',' :: ks) (name :: names)

mutual
/-- Any type: a word of the language, a name, or a struct definition. -/
inductive Specifier : Scope → Kinds → Ty → Scope → Prop
  | word {s : Scope} {word : String} {ty : Ty} (known : Ty.ofWord? word = some ty) :
    Specifier s [.keyword word] ty s
  | name {s : Scope} {name : String} {ty : Ty} (known : s.typeNamed name = some ty) :
    Specifier s [.ident name] ty s
  | definition {s s' : Scope} {ks : Kinds} {ty : Ty} (definition : Definition s ks ty s') :
    Specifier s ks ty s'

/-- A struct definition. The name of a struct is taken behind its members. -/
inductive Definition : Scope → Kinds → Ty → Scope → Prop
  | anonymous {s s' : Scope} {ks : Kinds} {members : List (String × Ty)}
    (body : Members s [] ks members s') :
    Definition s (.keyword "struct" :: .control '{' :: (ks ++ [.control '}']))
      (.struct none members) s'
  | named {s s' s'' : Scope} {ks : Kinds} {members : List (String × Ty)} {name : String}
    (body : Members s [] ks members s')
    (free : s'.addType? name (.struct (some name) members) = some s'') :
    Definition s (.keyword "struct" :: .ident name :: .control '{' :: (ks ++ [.control '}']))
      (.struct (some name) members) s''

/-- Member declarations behind those found so far. Every member has a name of its own, and a type
    with components or members. -/
inductive Members : Scope → List (String × Ty) → Kinds → List (String × Ty) → Scope → Prop
  | done {s : Scope} {found : List (String × Ty)} : Members s found [] found s
  | more {s s' s'' : Scope} {found members : List (String × Ty)} {ks ns us : Kinds} {ty : Ty}
    {names : List String} (type : Specifier s ks ty s') (holds : ty.isBasic || ty.isStruct)
    (spelled : MemberNames ns names) (distinct : names.Nodup)
    (fresh : ∀ name ∈ names, name ∉ found.map (·.1))
    (rest : Members s' (found ++ names.map (·, ty)) us members s'') :
    Members s found (ks ++ (ns ++ .control ';' :: us)) members s''
end

/-- The type in front of a constructor's arguments. -/
inductive Constructor : Scope → Kinds → Ty → Scope → Prop
  | word {s : Scope} {word : String} {ty : Ty} (known : Ty.ofWord? word = some ty)
    (basic : ty.isBasic) : Constructor s [.keyword word] ty s
  | name {s : Scope} {name : String} {ty : Ty} (known : s.typeNamed name = some ty) :
    Constructor s [.ident name] ty s
  | definition {s s' : Scope} {ks : Kinds} {ty : Ty} (definition : Definition s ks ty s') :
    Constructor s ks ty s'

/-- What a name behind a point selects: a member, or up to four components that the letters of one
    set name and that are there. -/
inductive Field (base : Expr) (name : String) : Expr → Prop
  | member {index : Nat} (found : base.ty.memberIndex? name = some index) :
    Field base name (.member base index)
  | components {letters : Letters} {indexes : List Nat}
    (shape : (∃ s, base.ty = .scalar s) ∨ ∃ s n, base.ty = .vector s n)
    (spelled : name.toList.mapM letters.index? = some indexes) (some : indexes ≠ [])
    (few : indexes.length ≤ 4) (inside : ∀ i ∈ indexes, i < max base.ty.length 1) :
    Field base name (.swizzle base letters indexes)

mutual
/-- An expression: an operation, or an assignment to one. Assignments group to the right. A rule
    relates a scope and the tokens it takes to what they mean and to the scope behind it, which
    differs where a struct is named inside of the phrase. No rule mentions a position, a bound, or
    what a reader does with other tokens. -/
inductive Assignment : Scope → Kinds → Expr → Scope → Prop
  | operation {s s' : Scope} {ks : Kinds} {e : Expr} (operation : Operation 2 s ks e s') :
    Assignment s ks e s'
  | assign {s s' s'' : Scope} {ks us : Kinds} {k : Token.Kind} {op : Option Operator} {ty : Ty}
    {target value : Expr} (left : Operation 2 s ks target s') (sign : k.assignment? = some op)
    (place : target.isAssignable)
    (writable : ∀ x, target.assigned? = some x → x.qualifier.isReadOnly = false)
    (right : Assignment s' us value s'')
    (typed : Reader.assignedType op target.ty value.ty = .ok ty)
    (fits : ty.convertsTo target.ty) :
    Assignment s (ks ++ k :: us) (.assign op ty target value) s''

/-- Operators of a precedence and of all tighter ones. Operators of one precedence group to the
    left. Tighter than all of them are the operators in front of an expression. -/
inductive Operation : Nat → Scope → Kinds → Expr → Scope → Prop
  | unary {s s' : Scope} {ks : Kinds} {e : Expr} (unary : Unary s ks e s') :
    Operation 13 s ks e s'
  | tighter {p : Nat} {s s' : Scope} {ks : Kinds} {e : Expr} (loose : p < 13)
    (tighter : Operation (p + 1) s ks e s') : Operation p s ks e s'
  | binary {p : Nat} {s s' s'' : Scope} {ks us : Kinds} {k : Token.Kind} {op : Operator} {ty : Ty}
    {left right : Expr} (before : Operation p s ks left s') (sign : k.operator? = some op)
    (strength : op.precedence = p) (after : Operation (p + 1) s' us right s'')
    (typed : op.resultType left.ty right.ty = .ok ty) :
    Operation p s (ks ++ k :: us) (.binary op ty left right) s''

/-- Signs in front of an expression. -/
inductive Unary : Scope → Kinds → Expr → Scope → Prop
  | plus {s s' : Scope} {ks : Kinds} {e : Expr} (operand : Unary s ks e s') :
    Unary s (.control '+' :: ks) e s'
  | minus {s s' : Scope} {ks : Kinds} {e : Expr} (operand : Unary s ks e s')
    (basic : e.ty.isBasic) (number : e.ty.component? ≠ some .bool) :
    Unary s (.control '-' :: ks) (.negate e) s'
  | postfixed {s s' : Scope} {ks : Kinds} {e : Expr} (operand : Postfixed s ks e s') :
    Unary s ks e s'

/-- Fields behind an expression. -/
inductive Postfixed : Scope → Kinds → Expr → Scope → Prop
  | primary {s s' : Scope} {ks : Kinds} {e : Expr} (primary : Primary s ks e s') :
    Postfixed s ks e s'
  | field {s s' : Scope} {ks : Kinds} {base e : Expr} {name : String}
    (operand : Postfixed s ks base s') (selects : Field base name e) :
    Postfixed s (ks ++ [.control '.', .ident name]) e s'

/-- Literals, names, parentheses and calls. A name is a type before it is a function, and a
    function before it is a variable. -/
inductive Primary : Scope → Kinds → Expr → Scope → Prop
  | literal {s : Scope} (value : Scalar) :
    Primary s [.literal value] (.constant (.ofScalar value)) s
  | reference {s : Scope} {name : String} {x : Variable} (noType : s.typeNamed name = none)
    (noFunction : s.hasFunction name = false) (found : s.variableNamed name = some x) :
    Primary s [.ident name] (.reference x) s
  | parentheses {s s' : Scope} {ks : Kinds} {e : Expr} (inside : Assignment s ks e s') :
    Primary s (enclosed ks) e s'
  | construct {s s' s'' : Scope} {ks us : Kinds} {ty : Ty} {es : List Expr}
    (type : Constructor s ks ty s') (basic : ty.isStruct = false) (inside : Arguments s' us es s'')
    (filled : ty.FilledBy (es.map Expr.ty)) :
    Primary s (ks ++ enclosed us) (.construct ty es) s''
  | make {s s' s'' : Scope} {ks us : Kinds} {ty : Ty} {es : List Expr} {f : Function}
    (type : Constructor s ks ty s') (struct : ty.isStruct) (inside : Arguments s' us es s'')
    (resolved : Candidates.resolve? [.constructor ty] (es.map Expr.ty) = some f) :
    Primary s (ks ++ enclosed us) (.call f es) s''
  | call {s s' : Scope} {us : Kinds} {name : String} {es : List Expr} {f : Function}
    (noType : s.typeNamed name = none) (isFunction : s.hasFunction name)
    (inside : Arguments s us es s')
    (resolved : Candidates.resolve? (s.functions name) (es.map Expr.ty) = some f) :
    Primary s (.ident name :: enclosed us) (.call f es) s'

/-- What stands between the parentheses of a call. -/
inductive Arguments : Scope → Kinds → List Expr → Scope → Prop
  | none {s : Scope} : Arguments s [] [] s
  | some {s s' : Scope} {ks : Kinds} {es : List Expr} (list : ArgumentList s ks es s') :
    Arguments s ks es s'

/-- Arguments between commas. -/
inductive ArgumentList : Scope → Kinds → List Expr → Scope → Prop
  | one {s s' : Scope} {ks : Kinds} {e : Expr} (argument : Assignment s ks e s') :
    ArgumentList s ks [e] s'
  | more {s s' s'' : Scope} {ks us : Kinds} {e : Expr} {es : List Expr}
    (argument : Assignment s ks e s') (rest : ArgumentList s' us es s'') :
    ArgumentList s (ks ++ .control ',' :: us) (e :: es) s''
end

end Phrase

end ShaderExpr
