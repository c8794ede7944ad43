import ShaderExpr.Numeric.Binary
import ShaderExpr.Numeric.LittleEndian
import ShaderExpr.Numeric.Shortest
import ShaderExpr.ScalarType

namespace ShaderExpr

/-- One component of a value. -/
inductive Scalar
  | float (x : Binary32)
  | double (x : Binary64)
  | int (n : Int32)
  | uint (n : UInt32)
  | bool (b : Bool)
  deriving DecidableEq, Repr

namespace Scalar

def type : Scalar → ScalarType
  | .float _ => .float
  | .double _ => .double
  | .int _ => .int
  | .uint _ => .uint
  | .bool _ => .bool

def toBinary32 : Scalar → Binary32
  | .float x => x
  | .double x => x.toBinary32
  | .int n => .ofInt32 n
  | .uint n => .ofUInt32 n
  | .bool b => .ofUInt32 b.toUInt32

def toBinary64 : Scalar → Binary64
  | .float x => x.toBinary64
  | .double x => x
  | .int n => .ofInt32 n
  | .uint n => .ofUInt32 n
  | .bool b => .ofUInt32 b.toUInt32

/-- Integers keep their pattern. -/
def toInt32 : Scalar → Int32
  | .float x => x.toInt32
  | .double x => x.toInt32
  | .int n => n
  | .uint n => n.toInt32
  | .bool b => b.toUInt32.toInt32

/-- Integers keep their pattern. -/
def toUInt32 : Scalar → UInt32
  | .float x => x.toUInt32
  | .double x => x.toUInt32
  | .int n => n.toUInt32
  | .uint n => n
  | .bool b => b.toUInt32

/-- Whatever is not zero is true. -/
def toBool : Scalar → Bool
  | .float x => !x.isZero
  | .double x => !x.isZero
  | .int n => n != 0
  | .uint n => n != 0
  | .bool b => b

/-- Explicit conversion, defined between any two component types. -/
def convert (s : Scalar) : ScalarType → Scalar
  | .float => .float s.toBinary32
  | .double => .double s.toBinary64
  | .int => .int s.toInt32
  | .uint => .uint s.toUInt32
  | .bool => .bool s.toBool

theorem type_convert (s : Scalar) (t : ScalarType) : (s.convert t).type = t := by
  cases t <;> rfl

def zero (t : ScalarType) : Scalar := (int 0).convert t
def one (t : ScalarType) : Scalar := (int 1).convert t

/-- The words of a component, the low-order word first. -/
def words : Scalar → List UInt32
  | .float x => [x.bits]
  | .double x => [x.bits.toUInt32, (x.bits >>> 32).toUInt32]
  | .int n => [n.toUInt32]
  | .uint n => [n]
  | .bool b => [b.toUInt32]

/-- Reads a component. Any word but zero is true. -/
def ofWords? : ScalarType → List UInt32 → Option Scalar
  | .float, [w] => some (.float ⟨w⟩)
  | .double, [low, high] => some (.double ⟨high.toUInt64 <<< 32 ||| low.toUInt64⟩)
  | .int, [w] => some (.int w.toInt32)
  | .uint, [w] => some (.uint w)
  | .bool, [w] => some (.bool (w != 0))
  | _, _ => none

def bytes (s : Scalar) : List UInt8 := s.words.flatMap wordBytes

def ofBytes? (t : ScalarType) (bytes : List UInt8) : Option Scalar :=
  if bytes.length = t.size then ofWords? t (wordsOfBytes bytes) else none

theorem length_words (s : Scalar) : s.words.length = s.type.words := by
  cases s <;> rfl

theorem length_bytes (s : Scalar) : s.bytes.length = s.type.size := by
  rw [bytes, length_flatMap_wordBytes, length_words, ScalarType.size]

theorem length_bytes_convert (s : Scalar) (t : ScalarType) :
    (s.convert t).bytes.length = t.size := by
  rw [length_bytes, type_convert]

/-- Numbers are written positionally from a ten-thousandth up to ten quadrillion. -/
def numeralStyle : NumeralStyle := ⟨-4, 15⟩

/-- A double ends in "lf" and an unsigned integer in "u". -/
def text : Scalar → String
  | .float x => BinaryFormat.single.text numeralStyle x.bits.toNat
  | .double x => BinaryFormat.double.text numeralStyle x.bits.toNat ++ "lf"
  | .int n => toString n.toInt
  | .uint n => toString n.toNat ++ "u"
  | .bool b => if b then "true" else "false"

/-- Pattern that a signed numeral writes in a format. -/
def readBits? (f : BinaryFormat) (text : List Char) : Option Nat :=
  let (negative, unsigned) := readSign text
  let magnitude :=
    if unsigned = "inf".toList then some f.infinity
    else if unsigned = "NaN".toList then some (f.infinity + Nat.pow 2 (f.fractionBits - 1))
    else (Decimal.read? unsigned).map (Decimal.toBits f)
  magnitude.map fun m => if negative then f.signBit + m else m

/-- Reads the text of a component. Without a suffix, a numeral that fits a signed integer is one,
    and any other is a float. -/
def read? (text : String) : Option Scalar :=
  let chars := text.toList
  if text = "true" then some (.bool true)
  else if text = "false" then some (.bool false)
  else if "lf".toList.isSuffixOf chars then
    (readBits? .double (chars.take (chars.length - 2))).map fun b => .double ⟨UInt64.ofNat b⟩
  else if ['u'].isSuffixOf chars then
    (readInteger? chars.dropLast).map fun n => .uint (UInt32.ofNat n.toNat)
  else
    match (readInteger? chars).filter fun n => -0x80000000 ≤ n ∧ n < 0x80000000 with
    | some n => some (.int (Int32.ofInt n))
    | none => (readBits? .single chars).map fun b => .float ⟨UInt32.ofNat b⟩

end Scalar

end ShaderExpr
