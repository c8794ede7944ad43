namespace ShaderExpr

/-- Shape of a binary interchange format: one sign bit, the exponent bits, the fraction bits. A
    finite datum is a significand times a power of two. -/
structure BinaryFormat where
  fractionBits : Nat
  exponentBits : Nat
  deriving DecidableEq

namespace BinaryFormat

/-- The 32-bit format. -/
def single : BinaryFormat := ⟨23, 8⟩

/-- The 64-bit format. -/
def double : BinaryFormat := ⟨52, 11⟩

variable (f : BinaryFormat)

/-- Exponent of the spacing of the subnormal numbers. -/
def leastExponent : Int :=
  2 - Nat.pow 2 (f.exponentBits - 1) - f.fractionBits

/-- The bit pattern of positive infinity. Every smaller pattern is a finite magnitude, and
    magnitudes are ordered like their patterns. -/
def infinity : Nat :=
  (Nat.pow 2 f.exponentBits - 1) * Nat.pow 2 f.fractionBits

/-- The bit pattern of negative zero, which added to a magnitude negates it. -/
def signBit : Nat :=
  Nat.pow 2 (f.exponentBits + f.fractionBits)

/-- What a bit pattern denotes, its sign left aside. -/
inductive Magnitude
  | finite (significand : Nat) (exponent : Int)
  | infinite
  | notANumber
  deriving DecidableEq, Repr

def isNegative (bits : Nat) : Bool :=
  bits / f.signBit % 2 == 1

def magnitude (bits : Nat) : Magnitude :=
  let exponent := bits / Nat.pow 2 f.fractionBits % Nat.pow 2 f.exponentBits
  let fraction := bits % Nat.pow 2 f.fractionBits
  if exponent = Nat.pow 2 f.exponentBits - 1 then
    if fraction = 0 then .infinite else .notANumber
  else if exponent = 0 then
    .finite fraction f.leastExponent
  else
    .finite (Nat.pow 2 f.fractionBits + fraction) (f.leastExponent + (exponent - 1 : Nat))

end BinaryFormat

/-- `numerator / denominator` to the nearest natural number, a tie to the even one. -/
def roundHalfEven (numerator denominator : Nat) : Nat :=
  let quotient := numerator / denominator
  let rest := numerator % denominator
  if 2 * rest < denominator then quotient
  else if denominator < 2 * rest then quotient + 1
  else quotient + quotient % 2

/-- The power of two at or below `numerator / denominator`. The logarithms of the two parts
    leave two candidates. -/
def floorLog2 (numerator denominator : Nat) : Int :=
  let guess : Int := numerator.log2 - denominator.log2
  let reached := denominator * Nat.pow 2 guess.toNat ≤ numerator * Nat.pow 2 (-guess).toNat
  if reached then guess else guess - 1

namespace BinaryFormat

/-- Pattern of the magnitude nearest to `numerator / denominator`.

    The significand carries its hidden bit into the exponent field, so one sum covers subnormal
    numbers, normal numbers and the carry of a significand that rounds up to a power of two. -/
def nearest (f : BinaryFormat) (numerator denominator : Nat) : Nat :=
  if numerator = 0 then 0
  else
    let spacing := max (floorLog2 numerator denominator - f.fractionBits) f.leastExponent
    let significand :=
      roundHalfEven (numerator * Nat.pow 2 (-spacing).toNat)
        (denominator * Nat.pow 2 spacing.toNat)
    min ((spacing - f.leastExponent).toNat * Nat.pow 2 f.fractionBits + significand) f.infinity

/-- The pattern that stands for whatever is not a number. -/
def notANumber (f : BinaryFormat) : Nat := f.infinity + Nat.pow 2 (f.fractionBits - 1)

/-- Pattern of a product, rounded once. Zero times infinity is not a number. -/
def product (f : BinaryFormat) (x y : Nat) : Nat :=
  let sign := if f.isNegative x = f.isNegative y then 0 else f.signBit
  match f.magnitude x, f.magnitude y with
  | .finite s e, .finite s' e' =>
    sign + f.nearest (s * s' * Nat.pow 2 (e + e').toNat) (Nat.pow 2 (-(e + e')).toNat)
  | .infinite, .infinite => sign + f.infinity
  | .infinite, .finite s _ | .finite s _, .infinite =>
    if s = 0 then f.notANumber else sign + f.infinity
  | .notANumber, _ | _, .notANumber => f.notANumber

theorem product_comm (f : BinaryFormat) (x y : Nat) : f.product x y = f.product y x := by
  have hsign : (f.isNegative x = f.isNegative y) = (f.isNegative y = f.isNegative x) :=
    propext eq_comm
  unfold product
  simp only [hsign]
  cases f.magnitude x with
  | finite s e =>
    cases f.magnitude y with
    | finite s' e' => simp only [Nat.mul_comm s, Int.add_comm e]
    | infinite | notANumber => rfl
  | infinite | notANumber => cases f.magnitude y <;> rfl

end BinaryFormat

end ShaderExpr
