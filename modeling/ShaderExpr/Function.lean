import ShaderExpr.Builtin.Evaluation

namespace ShaderExpr

/-- Something that can be called. -/
inductive Function
  | builtin (signature : Signature)
  /-- Takes one argument per member of a struct. -/
  | constructor (ty : Ty)
  deriving DecidableEq, Repr

namespace Function

def name : Function → String
  | .builtin s => s.builtin.name
  | .constructor ty => ty.text

def result : Function → Ty
  | .builtin s => s.result
  | .constructor ty => ty

def parameters : Function → List Ty
  | .builtin s => s.parameters
  | .constructor ty => ty.members.map (·.2)

/-- Value of a call. Arguments come as the caller has them and are converted to the types of the
    parameters first. -/
def evaluate (f : Function) (arguments : List Value) : Option Value := do
  let converted ← (arguments.zip f.parameters).mapM fun (v, t) => (v.convert t).toOption
  match f with
  | .builtin s => s.evaluate converted
  | .constructor ty => (Value.ofMembers ty converted).toOption

end Function

/-- Functions that a call may still mean, each with whether all arguments so far had exactly the
    types of its parameters. -/
structure Candidates where
  entries : List (Function × Bool)
  deriving DecidableEq, Repr

namespace Candidates

def ofFunctions (functions : List Function) : Candidates := ⟨functions.map (·, true)⟩

def isEmpty (c : Candidates) : Bool := c.entries.isEmpty

/-- Keeps the functions whose parameter `n` accepts a value of type `ty`. -/
def takeArgument (c : Candidates) (n : Nat) (ty : Ty) : Candidates :=
  ⟨c.entries.filterMap fun (f, exact) =>
    match f.parameters[n]? with
    | none => none
    | some parameter =>
      if ty.convertsTo parameter then some (f, exact && parameter = ty) else none⟩

/-- Keeps the functions of `n` parameters. -/
def takeCount (c : Candidates) (n : Nat) : Candidates :=
  ⟨c.entries.filter fun (f, _) => f.parameters.length = n⟩

/-- The one function left, or else the one left that all arguments matched exactly. -/
def choice? (c : Candidates) : Option Function :=
  match c.entries with
  | [(f, _)] => some f
  | entries =>
    match entries.filter (·.2) with
    | [(f, _)] => some f
    | _ => none

end Candidates

end ShaderExpr
