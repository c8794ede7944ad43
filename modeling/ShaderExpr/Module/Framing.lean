import ShaderExpr.Fault
import ShaderExpr.Module.Stream

namespace ShaderExpr

/-- Operations under numbers that fit the lower half of a word. A number in use leads back to its
    operation, and no other does. -/
structure Codes (Op : Type) where
  number : Op → Nat
  ofNumber? : Nat → Option Op
  number_lt : ∀ op, number op < 0x10000
  ofNumber?_eq_some_iff : ∀ {n op}, ofNumber? n = some op ↔ number op = n

/-- An operation with its operand words. How instructions are written to a stream of words and cut
    out of it again does not depend on which operations there are, as long as each has a number. -/
structure Framed (Op : Type) where
  op : Op
  operands : List UInt32
  deriving DecidableEq, Repr

/-- The header of a module, without the words that are the same in all of them. -/
structure Header where
  version : UInt32
  generator : UInt32
  bound : UInt32
  deriving DecidableEq, Repr

def Header.words (h : Header) : List UInt32 :=
  [Module.magic, h.version, h.generator, h.bound, Module.schema]

namespace Codes

variable {Op : Type} (codes : Codes Op)

/-- The words of an instruction of at most `Instruction.maxWordCount` words. -/
def words (i : Framed Op) : List UInt32 :=
  UInt32.ofNat ((i.operands.length + 1) * 0x10000 + codes.number i.op) :: i.operands

/-- Appends an instruction to a stream, unless it has more words than its first word can say. -/
def push (stream : List UInt32) (i : Framed Op) : Except Fault (List UInt32) :=
  if i.operands.length + 1 ≤ Instruction.maxWordCount then .ok (stream ++ codes.words i)
  else .error .instructionTooLong

/-- The stream of some instructions, one after the other. -/
def encode (is : List (Framed Op)) : Except Fault (List UInt32) := is.foldlM codes.push []

/-- Takes a stream apart. The number of an instruction in the stream is `index` plus its position in
    the list. -/
def decodeFrom (index : Nat) : List UInt32 → Except ModuleError (List (Framed Op))
  | [] => .ok []
  | first :: rest =>
    let count := first.toNat / 0x10000
    let number := first.toNat % 0x10000
    if count = 0 ∨ rest.length + 1 < count then .error (.countOutOfBounds count index)
    else match codes.ofNumber? number with
      | none => .error (.unknownOpcode number)
      | some op =>
        match decodeFrom (index + 1) (rest.drop (count - 1)) with
        | .error e => .error e
        | .ok following => .ok (⟨op, rest.take (count - 1)⟩ :: following)
termination_by words => words.length
decreasing_by simp only [List.length_drop, List.length_cons]; omega

def decode (words : List UInt32) : Except ModuleError (List (Framed Op)) := codes.decodeFrom 0 words

/-- Takes the stream of a whole module apart. -/
def decodeModule : List UInt32 → Except ModuleError (Header × List (Framed Op))
  | first :: version :: generator :: bound :: last :: rest =>
    if first ≠ Module.magic then .error (.badMagic first)
    else if last ≠ Module.schema then .error (.unknownSchema last)
    else match codes.decode rest with
      | .error e => .error e
      | .ok is => .ok (⟨version, generator, bound⟩, is)
  | _ => .error .noHeader

end Codes

end ShaderExpr
