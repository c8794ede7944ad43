import ShaderExpr.CommandLine

namespace ShaderExpr

def UsageError.message : UsageError → String
  | help => "usage: check FILE | print FILE | eval FILE | compile FILE [OPTIONS]"
  | noArguments | noCommand => "a command is required"
  | missingFile => "a file is required"
  | unknownArgument => "unexpected argument"
  | unknownCommand => "unrecognized command"
  | invalidValue => "invalid value of an option"
  | repeatedOption => "an option is given twice"
  | valueOfFlag => "a flag takes no value"

/-- Runs a command on its file. The result is the exit code. -/
def Command.execute (c : Command) : IO UInt32 := do
  let source ← IO.FS.readFile c.file
  match c.run source with
  | .ok answer =>
    IO.print answer.text
    if let some (path, bytes) := answer.file then
      IO.FS.writeBinFile path ⟨bytes.toArray⟩
    return 0
  | .error (.problems diagnostics) =>
    IO.println (Diagnostic.reports diagnostics source)
    return 1
  | .error (.fault _) =>
    IO.eprintln "internal error"
    return 101

end ShaderExpr

open ShaderExpr

def main (arguments : List String) : IO UInt32 := do
  match CommandLine.read arguments with
  | .ok command =>
    try command.execute
    catch e =>
      IO.println (toString e)
      return 1
  | .error e =>
    IO.eprintln e.message
    return 2
