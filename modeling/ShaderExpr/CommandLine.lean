import ShaderExpr.Expr.Printer
import ShaderExpr.Program
import ShaderExpr.Source.Report

namespace ShaderExpr

/-- Why arguments ask for nothing that can be done. -/
inductive UsageError
  | help
  | noArguments
  | noCommand
  | missingFile
  | unknownArgument
  | unknownCommand
  | invalidValue
  | repeatedOption
  | valueOfFlag
  deriving DecidableEq, Repr

inductive CommandName
  | check | print | eval | compile
  deriving DecidableEq, Repr

def CommandName.ofWord? : String → Option CommandName
  | "check" => some .check
  | "print" => some .print
  | "eval" => some .eval
  | "compile" => some .compile
  | _ => none

/-- A command with its file and, for compilation, what comes of it.

    [-v] check FILE | print FILE | eval FILE
    [-v] compile FILE [-o FILE] [--disassemble] [--strip-names] [--no-fold]
                      [--execution-model compute|fragment] -/
structure Command where
  name : CommandName
  file : String
  options : Options := {}
  /-- The file to write, when it is not the source file with another extension. -/
  output : Option String := none
  disassemble : Bool := false
  deriving DecidableEq, Repr

/-- What a command answers: text, and possibly a file with its contents. -/
structure Answer where
  text : String
  file : Option (String × List UInt8) := none
  deriving DecidableEq, Repr

namespace CommandLine

/-- Options of the compile command. -/
inductive OptionName
  | output | model | disassemble | stripNames | noFold
  deriving DecidableEq, Repr

namespace OptionName

def ofLong? : String → Option OptionName
  | "output" => some .output
  | "execution-model" => some .model
  | "disassemble" => some .disassemble
  | "strip-names" => some .stripNames
  | "no-fold" => some .noFold
  | _ => none

def takesValue : OptionName → Bool
  | output | model => true
  | _ => false

end OptionName

/-- One argument, taken apart. -/
inductive Argument
  /-- Two dashes alone, behind which no argument is an option. -/
  | separator
  | long (name : String) (value : Option String)
  | short (letters : List Char)
  | plain (text : String)
  deriving DecidableEq, Repr

def Argument.ofText (text : String) : Argument :=
  match text.toList with
  | ['-', '-'] => .separator
  | '-' :: '-' :: rest =>
    let name := String.ofList (rest.takeWhile (· ≠ '='))
    match rest.dropWhile (· ≠ '=') with
    | _ :: value => .long name (some (String.ofList value))
    | [] => .long name none
  | '-' :: c :: rest => .short (c :: rest)
  | _ => .plain text

/-- What was read of a command's arguments. -/
structure Progress where
  name : CommandName
  file : Option String := none
  found : List OptionName := []
  options : Options := {}
  output : Option String := none
  disassemble : Bool := false
  /-- An option whose value is still to come, with the value once it was read. A value is checked
      when the next argument is known to be one. -/
  waiting : Option (OptionName × Option String) := none
  onlyFiles : Bool := false

namespace Progress

def model? : String → Option ExecutionModel
  | "compute" => some .compute
  | "fragment" => some .fragment
  | _ => none

def setFlag (p : Progress) : OptionName → Progress
  | .disassemble => { p with disassemble := true }
  | .stripNames => { p with options := { p.options with debugNames := false } }
  | .noFold => { p with options := { p.options with foldConstants := false } }
  | _ => p

/-- Checks the value of an option that waits for one. -/
def settle (p : Progress) : Except UsageError Progress :=
  match p.waiting with
  | none => .ok p
  | some (_, none) => .error .invalidValue
  | some (.model, some value) =>
    match model? value with
    | some model => .ok { p with waiting := none, options := { p.options with model } }
    | none => .error .invalidValue
  | some (_, some value) =>
    if value.isEmpty then .error .invalidValue
    else .ok { p with waiting := none, output := some value }

/-- Starts an option, with its value when that is part of the argument. -/
def option (p : Progress) (o : OptionName) (value : Option String) :
    Except UsageError Progress := do
  let p ← p.settle
  if p.found.contains o then throw .repeatedOption
  let p := { p with found := o :: p.found }
  if o.takesValue then
    return { p with waiting := some (o, value) }
  else if value.isSome then throw .valueOfFlag
  else return p.setFlag o

/-- A file, or the value that an option waits for. -/
def plain (p : Progress) (text : String) : Except UsageError Progress := do
  match p.waiting with
  | some (o, none) => return { p with waiting := some (o, some text) }
  | _ =>
    if p.file.isSome then throw .unknownArgument
    let p ← p.settle
    if text.isEmpty then throw .invalidValue
    return { p with file := some text }

/-- Letters behind one dash. The letter of an option with a value takes the rest for it. -/
def short (p : Progress) : List Char → Except UsageError Progress
  | [] => .ok p
  | 'h' :: _ => do
    let _ ← p.settle
    throw .help
  | 'o' :: rest =>
    if p.name = .compile then
      p.option .output <| match rest with
        | [] => none
        | '=' :: value => some (String.ofList value)
        | value => some (String.ofList value)
    else .error .unknownArgument
  | _ => .error .unknownArgument

def long (p : Progress) (name : String) (value : Option String) : Except UsageError Progress :=
  if name = "help" then do
    let _ ← p.settle
    throw (if value.isSome then .valueOfFlag else .help)
  else match OptionName.ofLong? name with
    | some o => if p.name = .compile then p.option o value else .error .unknownArgument
    | none => .error .unknownArgument

def argument (p : Progress) (text : String) : Except UsageError Progress :=
  if p.onlyFiles then p.plain text
  else match Argument.ofText text with
    | .separator => do return { ← p.settle with onlyFiles := true }
    | .long name value => p.long name value
    | .short letters => p.short letters
    | .plain text => p.plain text

/-- The command, once all arguments are read. -/
def finish (p : Progress) : Except UsageError Command := do
  let p ← p.settle
  match p.file with
  | none => throw .missingFile
  | some file => return ⟨p.name, file, p.options, p.output, p.disassemble⟩

end Progress

/-- Arguments of a command. -/
def ofCommand (name : CommandName) (arguments : List String) : Except UsageError Command := do
  let p ← arguments.foldlM Progress.argument { name }
  p.finish

/-- Arguments in front of a command, of which one asks for more messages. -/
def readFrom (verbose : Bool) : List String → Except UsageError Command
  | [] => .error (if verbose then .noCommand else .noArguments)
  | text :: rest =>
    match Argument.ofText text with
    | .long "help" none => .error .help
    | .long "help" (some _) => .error .valueOfFlag
    | .long "verbose" none => if verbose then .error .repeatedOption else readFrom true rest
    | .long "verbose" (some _) => .error .valueOfFlag
    | .short ['v'] => if verbose then .error .repeatedOption else readFrom true rest
    | .short ('v' :: 'v' :: _) => .error .repeatedOption
    | .short ('v' :: 'h' :: _) => if verbose then .error .repeatedOption else .error .help
    | .short ('h' :: _) => .error .help
    | .plain "help" =>
      match rest with
      | [] => .error .help
      | word :: _ =>
        if (CommandName.ofWord? word).isSome || word = "help" then .error .help
        else .error .unknownCommand
    | .plain word =>
      match CommandName.ofWord? word with
      | some name => ofCommand name rest
      | none => .error .unknownCommand
    | _ => .error .unknownArgument

/-- What arguments ask for. -/
def read (arguments : List String) : Except UsageError Command := readFrom false arguments

/-- A path whose file name has another extension, or gets one. A point in front of a name starts no
    extension. -/
def withExtension (path extension : String) : String :=
  let chars := path.toList.reverse
  let name := chars.takeWhile (· ≠ '/')
  let directory := chars.dropWhile (· ≠ '/')
  let stem := (name.dropWhile (· ≠ '.')).drop 1
  let kept := if stem.isEmpty then name else stem
  String.ofList (kept ++ directory).reverse ++ "." ++ extension

end CommandLine

namespace Command

/-- Answer of a command for a program. -/
def answer (c : Command) (p : Program) : Except Fault Answer :=
  match c.name with
  | .check => .ok ⟨"All good. Expression is of type " ++ p.expression.ty.text ++ ".\n", none⟩
  | .print => .ok ⟨p.expression.print ++ "\n", none⟩
  | .eval => do
    match ← p.expression.constant? with
    | some value => return ⟨value.text ++ "\n", none⟩
    | none => return ⟨"not constant\n", none⟩
  | .compile => do
    let m ← p.compile c.options
    if c.disassemble then return ⟨m.listing, none⟩
    else
      let output := c.output.getD (CommandLine.withExtension c.file "spv")
      return ⟨"", some (output, m.bytes)⟩

/-- Answer of a command for a source. -/
def run (c : Command) (source : String) : Except ProgramError Answer := do
  let p ← Program.parse source
  (c.answer p).mapError .fault

end Command

end ShaderExpr
