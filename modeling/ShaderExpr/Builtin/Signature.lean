import ShaderExpr.Ty

namespace ShaderExpr

inductive Builtin
  | radians | degrees | sin | cos | tan | asin | acos | atan | pow | exp | log | exp2 | log2 | sqrt
  | inversesqrt | abs | sign | floor | trunc | round | roundEven | ceil | fract | mod | min | max
  | clamp | mix | step | smoothstep | isnan | isinf | length | distance | dot | cross | normalize
  deriving DecidableEq, Repr

namespace Builtin

def all : List Builtin :=
  [.radians, .degrees, .sin, .cos, .tan, .asin, .acos, .atan, .pow, .exp, .log, .exp2, .log2,
    .sqrt, .inversesqrt, .abs, .sign, .floor, .trunc, .round, .roundEven, .ceil, .fract, .mod,
    .min, .max, .clamp, .mix, .step, .smoothstep, .isnan, .isinf, .length, .distance, .dot,
    .cross, .normalize]

def name : Builtin → String
  | .radians => "radians"
  | .degrees => "degrees"
  | .sin => "sin"
  | .cos => "cos"
  | .tan => "tan"
  | .asin => "asin"
  | .acos => "acos"
  | .atan => "atan"
  | .pow => "pow"
  | .exp => "exp"
  | .log => "log"
  | .exp2 => "exp2"
  | .log2 => "log2"
  | .sqrt => "sqrt"
  | .inversesqrt => "inversesqrt"
  | .abs => "abs"
  | .sign => "sign"
  | .floor => "floor"
  | .trunc => "trunc"
  | .round => "round"
  | .roundEven => "roundEven"
  | .ceil => "ceil"
  | .fract => "fract"
  | .mod => "mod"
  | .min => "min"
  | .max => "max"
  | .clamp => "clamp"
  | .mix => "mix"
  | .step => "step"
  | .smoothstep => "smoothstep"
  | .isnan => "isnan"
  | .isinf => "isinf"
  | .length => "length"
  | .distance => "distance"
  | .dot => "dot"
  | .cross => "cross"
  | .normalize => "normalize"

def ofName? (name : String) : Option Builtin := all.find? fun b => b.name = name

/-- Does the result depend on whole vectors rather than on matching components? -/
def isReducing : Builtin → Bool
  | .length | .distance | .dot | .cross | .normalize => true
  | _ => false

end Builtin

/-- One overload of a builtin function. -/
structure Signature where
  builtin : Builtin
  result : Ty
  parameters : List Ty
  deriving DecidableEq, Repr

namespace Builtin

/-- A component type and its vectors. -/
def shapes (s : ScalarType) : List Ty :=
  .scalar s :: Dim.all.map (.vector s)

/-- Component types that a function is overloaded for. -/
def domains : Builtin → List ScalarType
  | .abs | .sign => [.float, .int]
  | .min | .max | .clamp => [.float, .int, .uint]
  | _ => [.float]

/-- Results and parameters of a function over a shape `t` with components `s`. Some vector
    overloads have a variant with scalars among the parameters. -/
def forms (b : Builtin) (t s : Ty) : List (Ty × List Ty) :=
  let withVariant (parameters variant : List Ty) : List (Ty × List Ty) :=
    if t.isScalar then [(t, parameters)] else [(t, parameters), (t, variant)]
  match b with
  | .atan => [(t, [t]), (t, [t, t])]
  | .pow => [(t, [t, t])]
  | .mod | .min | .max => withVariant [t, t] [t, s]
  | .clamp => withVariant [t, t, t] [t, s, s]
  | .mix => withVariant [t, t, t] [t, t, s]
  | .step => withVariant [t, t] [s, t]
  | .smoothstep => withVariant [t, t, t] [s, s, t]
  | .isnan | .isinf => [(t.withComponent .bool, [t])]
  | .length => [(s, [t])]
  | .distance | .dot => [(s, [t, t])]
  | _ => [(t, [t])]

/-- Every overload of a function. The cross product only exists in three dimensions. -/
def overloads (b : Builtin) : List Signature :=
  match b with
  | .cross =>
    let v := Ty.vector .float .three
    [⟨b, v, [v, v]⟩]
  | _ =>
    b.domains.flatMap fun s => (shapes s).flatMap fun t =>
      (b.forms t (.scalar s)).map fun (result, parameters) => ⟨b, result, parameters⟩

end Builtin

end ShaderExpr
