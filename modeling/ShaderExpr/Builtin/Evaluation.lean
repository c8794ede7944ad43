import ShaderExpr.Builtin.Signature
import ShaderExpr.Value

namespace ShaderExpr

namespace Builtin

/-- The greater number. What is not a number gives way to the other. -/
def greater (x y : Float) : Float := if x.isNaN then y else if y > x then y else x

/-- The lesser number. What is not a number gives way to the other. -/
def lesser (x y : Float) : Float := if x.isNaN then y else if y < x then y else x

/-- Drops the fraction. -/
def truncated (x : Float) : Float := if x < 0.0 then x.ceil else x.floor

/-- Nearest integer. Half of an odd number goes to the even neighbour, which is found as twice the
    nearest integer of the half. -/
def roundedEven (x : Float) : Float :=
  if (x - x.floor) == 0.5 then 2.0 * (x / 2.0).round else x.round

/-- Sign of a number, zero for zero and for what is not a number. -/
def signum (x : Float) : Float := if x > 0.0 then 1.0 else if x < 0.0 then -1.0 else 0.0

def truth (b : Bool) : Float := if b then 1.0 else 0.0

/-- Cubic passage from zero to one between two edges. -/
def smooth (low high x : Float) : Float :=
  let ratio := (x - low) / (high - low)
  let t := if ratio < 0.0 then 0.0 else ratio
  let t := if t > 1.0 then 1.0 else t
  t * t * (3.0 - 2.0 * t)

/-- One component of a result from the matching components of the arguments. There is none when
    their number is not one that the function takes. -/
def component : Builtin → List Float → Option Float
  | .radians, [x] => some (x * 0.017453292519943295)
  | .degrees, [x] => some (x * 57.29577951308232)
  | .sin, [x] => some x.sin
  | .cos, [x] => some x.cos
  | .tan, [x] => some x.tan
  | .asin, [x] => some x.asin
  | .acos, [x] => some x.acos
  | .atan, [x] => some x.atan
  | .atan, [y, x] => some (y.atan2 x)
  | .pow, [x, y] => some (x.pow y)
  | .exp, [x] => some x.exp
  | .log, [x] => some x.log
  | .exp2, [x] => some x.exp2
  | .log2, [x] => some x.log2
  | .sqrt, [x] => some x.sqrt
  | .inversesqrt, [x] => some (1.0 / x.sqrt)
  | .abs, [x] => some x.abs
  | .sign, [x] => some (signum x)
  | .floor, [x] => some x.floor
  | .trunc, [x] => some (truncated x)
  | .round, [x] => some x.round
  | .roundEven, [x] => some (roundedEven x)
  | .ceil, [x] => some x.ceil
  | .fract, [x] => some (x - x.floor)
  | .mod, [x, y] => some (x - y * (x / y).floor)
  | .min, [x, y] => some (lesser x y)
  | .max, [x, y] => some (greater x y)
  | .clamp, [x, low, high] => some (lesser (greater x low) high)
  | .mix, [x, y, a] => some (x * (1.0 - a) + y * a)
  | .step, [edge, x] => some (truth (x >= edge))
  | .smoothstep, [low, high, x] => some (smooth low high x)
  | .isnan, [x] => some (truth x.isNaN)
  | .isinf, [x] => some (truth x.isInf)
  | _, _ => none

/-- One component of a signed result. The negation of the least integer is itself. -/
def signedComponent : Builtin → List Int32 → Option Int32
  | .abs, [x] => some (if x < 0 then -x else x)
  | .sign, [x] => some (if x > 0 then 1 else if x < 0 then -1 else 0)
  | .min, [x, y] => some (if x ≤ y then x else y)
  | .max, [x, y] => some (if x ≤ y then y else x)
  | .clamp, [x, low, high] =>
    let raised := if x ≤ low then low else x
    some (if raised ≤ high then raised else high)
  | _, _ => none

/-- One component of an unsigned result. -/
def unsignedComponent : Builtin → List UInt32 → Option UInt32
  | .min, [x, y] => some (if x ≤ y then x else y)
  | .max, [x, y] => some (if x ≤ y then y else x)
  | .clamp, [x, low, high] =>
    let raised := if x ≤ low then low else x
    some (if raised ≤ high then raised else high)
  | _, _ => none

/-- One component of a result of the given type from the matching components of the arguments. -/
def scalarComponent (b : Builtin) (result : ScalarType) (arguments : List Scalar) :
    Option Scalar :=
  match result with
  | .int => (b.signedComponent (arguments.map Scalar.toInt32)).map .int
  | .uint => (b.unsignedComponent (arguments.map Scalar.toUInt32)).map .uint
  | _ => (b.component (arguments.map (·.toBinary64.toFloat))).map fun x => .double (.ofFloat x)

/-- Component `i` of an argument. A scalar argument has the same component everywhere. -/
def argumentComponent? (v : Value) (i : Nat) : Option Scalar :=
  v.get? (if v.ty.isScalar then 0 else i)

/-- Sum from the left. Its start is the negative zero, which changes no number added to it. -/
def total (xs : List Float) : Float := xs.foldl (· + ·) (-0.0)

def dotProduct (a b : List Float) : Float := total (a.zipWith (· * ·) b)

/-- Components of a result that depends on whole vectors. There are none when the vectors are not
    those that the function takes. -/
def reduce : Builtin → List (List Float) → Option (List Float)
  | .length, [a] => some [(dotProduct a a).sqrt]
  | .distance, [a, b] =>
    let d := a.zipWith (· - ·) b
    some [(dotProduct d d).sqrt]
  | .dot, [a, b] => some [dotProduct a b]
  | .cross, [[a, b, c], [x, y, z]] => some [b * z - c * y, c * x - a * z, a * y - b * x]
  | .normalize, [a] =>
    let length := (dotProduct a a).sqrt
    some (a.map (· / length))
  | _, _ => none

end Builtin

/-- Value of a call whose arguments have the types of the parameters. Floating-point overloads are
    computed in doubles and rounded once to the result type, integer overloads in wrapping
    arithmetic. -/
def Signature.evaluate (s : Signature) (arguments : List Value) : Option Value :=
  if s.builtin.isReducing then do
    let vectors := arguments.map fun v => v.components.map (·.toBinary64.toFloat)
    let results ← s.builtin.reduce vectors
    some (.ofComponents s.result (results.map fun x => Scalar.double (.ofFloat x)))
  else do
    let component ← s.result.component?
    let results ← (List.range s.result.componentCount).mapM fun i => do
      s.builtin.scalarComponent component (← arguments.mapM (Builtin.argumentComponent? · i))
    some (.ofComponents s.result results)

end ShaderExpr
