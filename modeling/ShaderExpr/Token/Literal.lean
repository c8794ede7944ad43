import ShaderExpr.Character.Alphanumeric
import ShaderExpr.Token

namespace ShaderExpr

/-- What is wrong with an integer literal that can still be a token. -/
inductive LiteralFlaw
  | overflow | octalOverflow | octalDigit
  deriving DecidableEq, Repr

def LiteralFlaw.message : LiteralFlaw → String
  | overflow => "Overflow in integer constant."
  | octalOverflow => "Overflow in octal constant."
  | octalDigit => "Invalid digit in octal constant."

namespace Literal

def digitRun (text : List Char) : Nat := (text.takeWhile isDecimalDigit).length

def isExponentMark (c : Char) : Bool := c = 'e' || c = 'E'

def signSize : List Char → Nat
  | '+' :: _ => 1
  | '-' :: _ => 1
  | _ => 0

/-- Size of an exponent with its mark. An exponent without digits is none. -/
def exponentSize : List Char → Nat
  | [] => 0
  | c :: rest =>
    let sign := signSize rest
    let digits := digitRun (rest.drop sign)
    if isExponentMark c && digits != 0 then 1 + sign + digits else 0

/-- Size of a number with a point or an exponent, its suffix not included. -/
def floatSize (text : List Char) : Nat :=
  let whole := digitRun text
  match text.drop whole with
  | '.' :: rest =>
    let fraction := digitRun rest
    if whole = 0 ∧ fraction = 0 then 0
    else whole + 1 + fraction + exponentSize (rest.drop fraction)
  | rest =>
    let exponent := exponentSize rest
    if whole = 0 ∨ exponent = 0 then 0 else whole + exponent

/-- Size of the suffix of a floating-point number, and whether it makes it a double. -/
def floatSuffix : List Char → Nat × Bool
  | 'l' :: 'f' :: _ => (2, true)
  | 'L' :: 'F' :: _ => (2, true)
  | 'f' :: _ => (1, false)
  | 'F' :: _ => (1, false)
  | _ => (0, false)

/-- A floating-point literal and its size. Sizes count characters, and zero means that there is
    none. -/
def float? (text : List Char) : Option (Scalar × Nat) :=
  let size := floatSize text
  if size = 0 then none
  else
    let (suffix, isDouble) := floatSuffix (text.drop size)
    (Decimal.read? (text.take size)).map fun d =>
      let value := if isDouble then Scalar.double ⟨UInt64.ofNat (d.toBits .double)⟩
        else .float ⟨UInt32.ofNat (d.toBits .single)⟩
      (value, size + suffix)

inductive Radix
  | octal | decimal | hexadecimal
  deriving DecidableEq, Repr

def Radix.base : Radix → Nat
  | octal => 8
  | decimal => 10
  | hexadecimal => 16

def isHexDigit (c : Char) : Bool :=
  isDecimalDigit c || ('a' ≤ c && c ≤ 'f') || ('A' ≤ c && c ≤ 'F')

/-- Value of a digit of any radix up to sixteen. -/
def digitValue (c : Char) : Nat :=
  if isDecimalDigit c then c.toNat - '0'.toNat
  else if 'a' ≤ c then c.toNat - 'a'.toNat + 10
  else c.toNat - 'A'.toNat + 10

/-- Number that a string of digits writes in a radix. -/
def digitsValue (radix : Radix) (digits : List Char) : Nat :=
  digits.foldl (fun n c => radix.base * n + digitValue c) 0

/-- Digits of an integer literal, its suffix not included: their radix, themselves, and the size
    of the mark of the radix. A leading zero marks an octal number, whose digits 8 and 9 are taken
    too, and a zero alone is decimal. -/
def integerBody (text : List Char) : Radix × List Char × Nat :=
  let hex := match text with
    | '0' :: x :: rest => if x = 'x' || x = 'X' then rest.takeWhile isHexDigit else []
    | _ => []
  let digits := text.takeWhile isDecimalDigit
  if !hex.isEmpty then (.hexadecimal, hex, 2)
  else match digits with
    | '0' :: d :: more => (.octal, d :: more, 1)
    | _ => (.decimal, digits, 0)

def unsignedSuffix : List Char → Nat
  | 'u' :: _ => 1
  | 'U' :: _ => 1
  | _ => 0

/-- Size of an integer literal, whatever follows it. -/
def integerSize (text : List Char) : Nat :=
  let (_, digits, mark) := integerBody text
  let size := mark + digits.length
  size + unsignedSuffix (text.drop size)

/-- Word that an integer literal stands for. Out of range it is the low-order word of a number of
    two words, and the greatest word for still greater numbers. -/
def integerWord (radix : Radix) (digits : List Char) : UInt32 × Option LiteralFlaw :=
  let flaw := if radix = .octal then LiteralFlaw.octalOverflow else .overflow
  let n := digitsValue radix digits
  if radix = .octal ∧ digits.any fun c => c = '8' || c = '9' then (0, some .octalDigit)
  else if n < 0x100000000 then (UInt32.ofNat n, none)
  else if n < 0x10000000000000000 then (UInt32.ofNat n, some flaw)
  else (0xffffffff, some flaw)

/-- Can a literal end in front of this text? Not when a letter or a digit of any script or an
    underscore comes next. -/
def endsBefore : List Char → Bool
  | [] => true
  | c :: _ => !(isAlphanumeric c || c = '_')

/-- An integer literal, its flaw and its size. -/
def integer? (text : List Char) : Option (Scalar × Option LiteralFlaw × Nat) :=
  let (radix, digits, mark) := integerBody text
  let size := integerSize text
  if digits.isEmpty || !endsBefore (text.drop size) then none
  else
    let (word, flaw) := integerWord radix digits
    let unsigned := mark + digits.length < size
    some (if unsigned then .uint word else .int word.toInt32, flaw, size)

/-- A truth value and its size. -/
def bool? (text : List Char) : Option (Scalar × Nat) :=
  if "true".toList.isPrefixOf text && endsBefore (text.drop 4) then some (.bool true, 4)
  else if "false".toList.isPrefixOf text && endsBefore (text.drop 5) then some (.bool false, 5)
  else none

/-- How far a text that is no token was followed: behind the digits of a number that an identifier
    character ends, or behind the mark and sign of an exponent without digits. It is where the
    alternatives of chumsky 0.9 get to with such a text before they fail. -/
def reach (text : List Char) : Nat :=
  let digits := digitRun text
  if digits = 0 then 0
  else match text.drop digits with
    | [] => integerSize text
    | c :: rest =>
      if isExponentMark c then max (integerSize text) (digits + 1 + signSize rest)
      else integerSize text

end Literal

end ShaderExpr
