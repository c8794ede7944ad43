import ShaderExpr.Module.Instruction
import ShaderExpr.Numeric.LittleEndian

namespace ShaderExpr

/-- A module as its header says and its instructions are. All ids are below `bound`. As words it is
    a header of five and the instructions behind it. -/
structure Module where
  version : UInt32
  generator : UInt32
  bound : UInt32
  instructions : List Instruction
  deriving DecidableEq, Repr

/-- Zero-filled hexadecimal number of eight digits. -/
def hexWord (w : UInt32) : String :=
  let digits := Nat.toDigits 16 w.toNat
  "0x" ++ String.ofList (List.replicate (8 - digits.length) '0' ++ digits)

def ModuleError.message : ModuleError → String
  | countOutOfBounds count index =>
    invalid ("word count " ++ toString count ++ " of instruction " ++ toString index ++
      " is out of bounds")
  | unknownOpcode number => invalid ("unknown opcode " ++ toString number)
  | noHeader => invalid "module is shorter than its header"
  | badMagic found => invalid ("bad magic number " ++ hexWord found)
  | unknownSchema found => invalid ("unknown schema " ++ toString found.toNat)
where invalid (problem : String) : String := "invalid module: " ++ problem

namespace Module

def magic : UInt32 := 0x07230203

/-- Version 1.0. -/
def currentVersion : UInt32 := 0x00010000

/-- An unregistered vendor's tool, version 1. -/
def currentGenerator : UInt32 := 1

/-- Instruction schema of every module. -/
def schema : UInt32 := 0

def ofInstructions (bound : UInt32) (instructions : List Instruction) : Module :=
  ⟨currentVersion, currentGenerator, bound, instructions⟩

def headerWords (m : Module) : List UInt32 := [magic, m.version, m.generator, m.bound, schema]

def words (m : Module) : List UInt32 := m.headerWords ++ m.instructions.flatMap (·.words)

/-- File contents. -/
def bytes (m : Module) : List UInt8 := m.words.flatMap wordBytes

def decode : List UInt32 → Except ModuleError Module
  | first :: version :: generator :: bound :: last :: rest =>
    if first ≠ magic then .error (.badMagic first)
    else if last ≠ schema then .error (.unknownSchema last)
    else match Instruction.decode rest with
      | .error e => .error e
      | .ok instructions => .ok ⟨version, generator, bound, instructions⟩
  | _ => .error .noHeader

/-- Listing of a module, a header comment before its instructions. -/
def listing (m : Module) : String :=
  let header := "; SPIR-V " ++ hexWord m.version ++ ", bound " ++ toString m.bound.toNat ++ "\n"
  m.instructions.foldl (fun s i => s ++ i.text ++ "\n") header

end Module

end ShaderExpr
