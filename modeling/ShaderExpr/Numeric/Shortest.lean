import ShaderExpr.Numeric.Decimal

namespace ShaderExpr

/-- How many decimal digits write `n`. Zero needs none. -/
def digitCount (n : Nat) : Nat :=
  if n = 0 then 0 else (Nat.toDigits 10 n).length

/-- The numbers that round to one datum, as fractions over a common denominator: the datum
    `value` and the middles `low` and `high` between it and its neighbours. -/
structure RoundingInterval where
  low : Nat
  value : Nat
  high : Nat
  denominator : Nat
  /-- Do the two middles themselves round to the datum? -/
  closed : Bool

namespace RoundingInterval

/-- Interval of `significand * 2 ^ exponent`. Below a power of two the neighbours lie twice as
    dense, except at the bottom of the range. -/
def ofMagnitude (f : BinaryFormat) (significand : Nat) (exponent : Int) : RoundingInterval :=
  let quarter := Nat.pow 2 (exponent - 2).toNat
  let below := if significand = Nat.pow 2 f.fractionBits ∧ f.leastExponent < exponent then 1 else 2
  { low := (4 * significand - below) * quarter
    value := 4 * significand * quarter
    high := (4 * significand + 2) * quarter
    denominator := Nat.pow 2 (2 - exponent).toNat
    closed := significand % 2 == 0 }

/-- Exponent of the first significant decimal digit of the datum. -/
def leadingExponent (i : RoundingInterval) : Int :=
  if i.denominator ≤ i.value then (digitCount (i.value / i.denominator) : Int) - 1
  else -(digitCount ((i.denominator + i.value - 1) / i.value - 1) : Int)

/-- Is `a / d` below `b / d`, or at it when the interval has its ends? -/
def within (i : RoundingInterval) (a b : Nat) : Bool :=
  if i.closed then a ≤ b else a < b

/-- The multiple of `10 ^ exponent` in the interval, if one of the two neighbours of the datum on
    that grid lies in it. Of two the nearer is taken, and the greater when they are equally near. -/
def onGrid? (i : RoundingInterval) (exponent : Int) : Option Decimal :=
  let up := Nat.pow 10 (-exponent).toNat
  let unit := i.denominator * Nat.pow 10 exponent.toNat
  let below := i.value * up / unit
  let distance := i.value * up - below * unit
  let takesBelow := i.within (i.low * up) (below * unit)
  let takesAbove := i.within ((below + 1) * unit) (i.high * up)
  if takesBelow && (!takesAbove || 2 * distance < unit) then some ⟨below, exponent⟩
  else if takesAbove then some ⟨below + 1, exponent⟩
  else none

/-- The fewest digits that round back to the same datum, and of those the digits nearest to it. The
    coarsest grid with a point in the interval decides. Seventeen digits tell the data of both
    formats apart. -/
def shortest (i : RoundingInterval) : Decimal :=
  let lead := i.leadingExponent
  let grids := (List.range 17).map fun (n : Nat) => lead - n
  (grids.findSome? i.onGrid?).getD ⟨0, 0⟩

end RoundingInterval

/-- Where positional notation ends: it is used for leading digits from `10 ^ least` to
    `10 ^ greatest`. -/
structure NumeralStyle where
  least : Int
  greatest : Int

namespace Decimal

/-- Significant digits, without zeros at their end, and the number of them before the point. -/
def significant (d : Decimal) : List Char × Int :=
  let digits := Nat.toDigits 10 d.digits
  (((digits.reverse.dropWhile (· = '0')).reverse), digits.length + d.exponent)

/-- Positional notation has a digit on both sides of the point. In scientific notation a point
    stands only before further digits, and the exponent has no plus sign. -/
def text (style : NumeralStyle) (d : Decimal) : String :=
  let (digits, point) := d.significant
  let lead := point - 1
  if style.least ≤ lead ∧ lead ≤ style.greatest then
    let whole := digits.take point.toNat ++ List.replicate (point.toNat - digits.length) '0'
    let fraction := List.replicate (-point).toNat '0' ++ digits.drop point.toNat
    let orZero := fun (cs : List Char) => if cs.isEmpty then ['0'] else cs
    String.ofList (orZero whole ++ '.' :: orZero fraction)
  else
    let fraction := digits.drop 1
    let shown := if fraction.isEmpty then [] else '.' :: fraction
    String.ofList (digits.take 1 ++ shown) ++ "e" ++ toString lead

end Decimal

/-- Shortest text of a bit pattern. Zero is positional in every style. -/
def BinaryFormat.text (f : BinaryFormat) (style : NumeralStyle) (bits : Nat) : String :=
  let sign := if f.isNegative bits then "-" else ""
  match f.magnitude bits with
  | .notANumber => "NaN"
  | .infinite => sign ++ "inf"
  | .finite significand exponent =>
    if significand = 0 then sign ++ "0.0"
    else sign ++ ((RoundingInterval.ofMagnitude f significand exponent).shortest.text style)

end ShaderExpr
