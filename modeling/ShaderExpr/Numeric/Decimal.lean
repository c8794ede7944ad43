import ShaderExpr.Numeric.BinaryFormat

namespace ShaderExpr

/-- The number `digits * 10 ^ exponent`: what a decimal numeral without a sign is read as, before it
    is rounded to a binary format. -/
structure Decimal where
  digits : Nat
  exponent : Int
  deriving DecidableEq, Repr

/-- Is `c` one of the ten ASCII digits? -/
def isDecimalDigit (c : Char) : Bool :=
  '0' ≤ c && c ≤ '9'

/-- Number that a string of decimal digits writes. -/
def decimalValue (digits : List Char) : Nat :=
  digits.foldl (fun n c => 10 * n + (c.toNat - '0'.toNat)) 0

/-- Splits a sign off a numeral. True stands for a minus sign. -/
def readSign : List Char → Bool × List Char
  | '-' :: rest => (true, rest)
  | '+' :: rest => (false, rest)
  | rest => (false, rest)

/-- Reads a string of digits behind an optional sign. -/
def readInteger? (text : List Char) : Option Int :=
  let (negative, digits) := readSign text
  if digits.isEmpty || !digits.all isDecimalDigit then none
  else
    let n : Int := decimalValue digits
    some (if negative then -n else n)

namespace Decimal

/-- Reads digits with an optional point among them and an optional exponent. The point may come
    first or last, but some digit has to be there. -/
def read? (text : List Char) : Option Decimal :=
  let whole := text.takeWhile isDecimalDigit
  let afterWhole := text.dropWhile isDecimalDigit
  let (fraction, afterFraction) := match afterWhole with
    | '.' :: rest => (rest.takeWhile isDecimalDigit, rest.dropWhile isDecimalDigit)
    | rest => ([], rest)
  if whole.isEmpty && fraction.isEmpty then none
  else
    let exponent := match afterFraction with
      | [] => some 0
      | c :: rest => if c = 'e' || c = 'E' then readInteger? rest else none
    exponent.map fun e => ⟨decimalValue (whole ++ fraction), e - fraction.length⟩

/-- Pattern of the magnitude of `f` nearest to a decimal.

    Exponents far outside the range of any format are answered without computing their power:
    above `10 ^ 400` everything is infinite, and below `2 ^ (-1200)` everything is zero. -/
def toBits (f : BinaryFormat) (d : Decimal) : Nat :=
  let places := (-d.exponent).toNat
  if d.digits = 0 then 0
  else if 400 < d.exponent then f.infinity
  else if d.digits.log2 + 1200 < 3 * places then 0
  else f.nearest (d.digits * Nat.pow 10 d.exponent.toNat) (Nat.pow 10 places)

end Decimal

end ShaderExpr
