import ShaderExpr.Numeric.BinaryFormat

namespace ShaderExpr

/-- A number of the 32-bit binary format, as its bit pattern. Arithmetic and conversions round once,
    to nearest with ties to even; changes of sign and tests for zero are about the pattern alone.
    Two numbers are equal when their patterns are. -/
structure Binary32 where
  bits : UInt32
  deriving DecidableEq, Repr

/-- A number of the 64-bit binary format. -/
structure Binary64 where
  bits : UInt64
  deriving DecidableEq, Repr

namespace Binary64

def toFloat (x : Binary64) : Float := Float.ofBits x.bits
def ofFloat (x : Float) : Binary64 := ⟨x.toBits⟩

def add (x y : Binary64) : Binary64 := ofFloat (x.toFloat + y.toFloat)
def sub (x y : Binary64) : Binary64 := ofFloat (x.toFloat - y.toFloat)
def mul (x y : Binary64) : Binary64 :=
  ⟨UInt64.ofNat (BinaryFormat.double.product x.bits.toNat y.bits.toNat)⟩
def div (x y : Binary64) : Binary64 := ofFloat (x.toFloat / y.toFloat)
def neg (x : Binary64) : Binary64 := ⟨x.bits ^^^ 0x8000000000000000⟩

theorem mul_comm (x y : Binary64) : x.mul y = y.mul x := by
  rw [mul, mul, BinaryFormat.product_comm]

/-- Both zeros are zero. -/
def isZero (x : Binary64) : Bool := x.bits &&& 0x7fffffffffffffff == 0

def ofUInt32 (n : UInt32) : Binary64 :=
  ⟨UInt64.ofNat (BinaryFormat.double.nearest n.toNat 1)⟩

/-- Negative numbers are opposites of positive ones, as the format is symmetric. -/
def ofInt32 (n : Int32) : Binary64 :=
  if n < 0 then (ofUInt32 (-n).toUInt32).neg else ofUInt32 n.toUInt32

/-- Drops the fraction and clamps to the range. What is not a number becomes zero. -/
def toInt32 (x : Binary64) : Int32 := x.toFloat.toInt32

/-- Drops the fraction and clamps to the range. What is not a number becomes zero. -/
def toUInt32 (x : Binary64) : UInt32 := x.toFloat.toUInt32

end Binary64

namespace Binary32

def toFloat32 (x : Binary32) : Float32 := Float32.ofBits x.bits
def ofFloat32 (x : Float32) : Binary32 := ⟨x.toBits⟩

def add (x y : Binary32) : Binary32 := ofFloat32 (x.toFloat32 + y.toFloat32)
def sub (x y : Binary32) : Binary32 := ofFloat32 (x.toFloat32 - y.toFloat32)
def mul (x y : Binary32) : Binary32 :=
  ⟨UInt32.ofNat (BinaryFormat.single.product x.bits.toNat y.bits.toNat)⟩
def div (x y : Binary32) : Binary32 := ofFloat32 (x.toFloat32 / y.toFloat32)
def neg (x : Binary32) : Binary32 := ⟨x.bits ^^^ 0x80000000⟩

theorem mul_comm (x y : Binary32) : x.mul y = y.mul x := by
  rw [mul, mul, BinaryFormat.product_comm]

/-- Both zeros are zero. -/
def isZero (x : Binary32) : Bool := x.bits &&& 0x7fffffff == 0

def ofUInt32 (n : UInt32) : Binary32 :=
  ⟨UInt32.ofNat (BinaryFormat.single.nearest n.toNat 1)⟩

/-- Negative numbers are opposites of positive ones, as the format is symmetric. -/
def ofInt32 (n : Int32) : Binary32 :=
  if n < 0 then (ofUInt32 (-n).toUInt32).neg else ofUInt32 n.toUInt32

/-- Drops the fraction and clamps to the range. What is not a number becomes zero. -/
def toInt32 (x : Binary32) : Int32 := x.toFloat32.toInt32

/-- Drops the fraction and clamps to the range. What is not a number becomes zero. -/
def toUInt32 (x : Binary32) : UInt32 := x.toFloat32.toUInt32

def toBinary64 (x : Binary32) : Binary64 := .ofFloat x.toFloat32.toFloat

end Binary32

namespace Binary64

def toBinary32 (x : Binary64) : Binary32 := .ofFloat32 x.toFloat.toFloat32

end Binary64

end ShaderExpr
