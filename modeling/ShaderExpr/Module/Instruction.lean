import ShaderExpr.Module.Opcode

namespace ShaderExpr

/-- An instruction with its operand words. In a stream of words, a first word holds the number of
    its words in the upper half and the operation code in the lower half, and the operands follow.
    -/
structure Instruction where
  op : Opcode
  operands : List UInt32
  deriving DecidableEq, Repr

/-- Why a stream of words is no module. -/
inductive ModuleError
  | countOutOfBounds (count index : Nat)
  | unknownOpcode (number : Nat)
  | noHeader
  | badMagic (found : UInt32)
  | unknownSchema (found : UInt32)
  deriving DecidableEq, Repr

namespace Instruction

/-- Number of words, the first one included. -/
def wordCount (i : Instruction) : Nat := i.operands.length + 1

/-- Greatest number of words that the first word can say. -/
def maxWordCount : Nat := 65535

/-- The words of an instruction of at most `maxWordCount` words. -/
def words (i : Instruction) : List UInt32 :=
  UInt32.ofNat (i.wordCount * 0x10000 + i.op.number) :: i.operands

/-- Line of a listing. -/
def text (i : Instruction) : String :=
  i.operands.foldl (fun s w => s ++ " " ++ toString w.toNat) ("Op" ++ i.op.name)

/-- Takes a stream of words apart. The number of an instruction in the stream is `index` plus its
    position in the list. -/
def decodeFrom (index : Nat) : List UInt32 → Except ModuleError (List Instruction)
  | [] => .ok []
  | first :: rest =>
    let count := first.toNat / 0x10000
    let number := first.toNat % 0x10000
    if count = 0 ∨ rest.length + 1 < count then .error (.countOutOfBounds count index)
    else match Opcode.ofNumber? number with
      | none => .error (.unknownOpcode number)
      | some op =>
        match decodeFrom (index + 1) (rest.drop (count - 1)) with
        | .error e => .error e
        | .ok following => .ok (⟨op, rest.take (count - 1)⟩ :: following)
termination_by words => words.length
decreasing_by simp only [List.length_drop, List.length_cons]; omega

def decode (words : List UInt32) : Except ModuleError (List Instruction) := decodeFrom 0 words

end Instruction

end ShaderExpr
