import ShaderExpr.Module.Builder

namespace ShaderExpr

namespace ExecutionModel

def number : ExecutionModel → UInt32
  | compute => 5
  | fragment => 4

/-- Execution mode that a model needs, with its operands: a work group of one invocation, or the
    upper left corner as the origin. -/
def mode : ExecutionModel → List UInt32
  | compute => [17, 1, 1, 1]
  | fragment => [7]

end ExecutionModel

namespace Build

/-- Capability to run shaders. -/
def shaderCapability : UInt32 := 1

/-- Capability to compute with doubles. -/
def doubleCapability : UInt32 := 10

/-- Logical addressing and the memory model of GLSL. -/
def memoryModel : List UInt32 := [0, 1]

/-- Name of the body function. -/
def bodyName : String := "main"

def addCapabilities [Limits] : Build Unit := do
  add .header .capability [shaderCapability]
  if (← get).usesDouble then add .header .capability [doubleCapability]

/-- Imports the set of extended instructions if it is used. -/
def addImport [Limits] : Build Unit := do
  if let some set := (← get).extendedSet then
    add .header .extInstImport (set :: LiteralString.encode "GLSL.std.450")

/-- A function with parameters can only be called, so it is no entry point. -/
def addEntryPoint [Limits] (function : Id) : Build Unit := do
  let b ← get
  if b.parameters.isEmpty then
    let name := LiteralString.encode bodyName
    add .header .entryPoint (b.options.model.number :: function :: name ++ b.interface)
    add .header .executionMode (function :: b.options.model.mode)

/-- Everything in front of the names. -/
def addHeader [Limits] (function : Id) : Build Unit := do
  addCapabilities
  addImport
  add .header .memoryModel memoryModel
  addEntryPoint function

/-- The finished module: the code becomes the body of a function, which is the entry point when it
    takes no parameters. -/
def finish [Limits] : Build Module := do
  let void ← typeId .void
  let parameters := (← get).parameters
  let type ← fresh
  add .define .typeFunction (type :: void :: parameters.map (·.2))
  let function ← fresh
  let label ← fresh
  nameId function bodyName
  addHeader function
  let b ← get
  let opening := ⟨.function, [void, function, 0, type]⟩ ::
    parameters.map (fun (id, pointer) => ⟨.functionParameter, [pointer, id]⟩)
  return .ofInstructions b.nextId
    (b.header ++ b.debug ++ b.decorate ++ b.define ++ opening ++ [⟨.label, [label]⟩] ++
      b.declare ++ b.code ++ [⟨.ret, []⟩, ⟨.functionEnd, []⟩])

end Build

end ShaderExpr
