import LocatedYaml.Command.Arguments
import LocatedYaml.Command.FileSystem
import LocatedYaml.Convert
import LocatedYaml.Json.Writer
import LocatedYaml.Tree.Json

/-!
# The command

A conversion reads one input, converts it, and writes the tree as JSON. It is written for any system that offers the
four operations it needs; `run` carries it out on a world of values.
-/

namespace LocatedYaml.Command

def versionLine : String := "yaml-ast 0.1.0\n"

def usageLine : String := "Usage: yaml-ast [OPTIONS] [FILE]\n"

def helpText : String :=
  "Convert a YAML document into a located JSON-AST\n\n" ++ usageLine ++
    "\nArguments:\n" ++
    "  [FILE]  Path to the YAML document, or `-` for stdin [default: -]\n" ++
    "\nOptions:\n" ++
    "      --yaml-version <YAML_VERSION>  " ++
    "YAML version used to resolve plain scalars [default: 1.2] [possible values: 1.1, 1.2]\n" ++
    "      --compact                      Print the JSON on a single line\n" ++
    "  -o, --output <FILE>                Write the JSON to FILE instead of stdout\n" ++
    "  -h, --help                         Print help\n" ++
    "  -V, --version                      Print version\n"

/-- What makes a conversion fail. -/
inductive Failure where
  | readStandardInput (error : FileError)
  | read (path : Text) (error : FileError)
  | convert (path : Text) (error : ConvertError)
  | print (error : FileError)
  | write (path : Text) (error : FileError)

def Failure.message : Failure → String
  | .readStandardInput e => "Failed to read stdin: " ++ e.message
  | .read path e => "Failed to read input file: " ++ String.ofList path ++ ": " ++ e.message
  | .convert path e => "Failed to convert " ++ String.ofList path ++ ": " ++ e.message
  | .print e => "Failed to write to stdout: " ++ e.message
  | .write path e => "Failed to write output file: " ++ String.ofList path ++ ": " ++ e.message

/-! ### Conversions -/

/-- The operations that a conversion needs. -/
structure System (m : Type → Type) where
  readStandardInput : ExceptT FileError m ByteArray
  readFile : Text → ExceptT FileError m ByteArray
  print : String → ExceptT FileError m Unit
  writeFile : Text → String → ExceptT FileError m Unit

/-- Shows a text that was asked for. A run does not fail because it cannot be printed. -/
def System.display {m : Type → Type} [Monad m] (system : System m) (text : String) : m Unit :=
  discard (system.print text).run

namespace Invocation

def readsStandardInput (i : Invocation) : Bool := i.input = ['-']

/-- The output for the given content of the input. -/
def render (i : Invocation) (content : ByteArray) : Except Failure String :=
  match LocatedYaml.convert (.ofBytes content) i.options with
  | .error e => .error (.convert i.input e)
  | .ok doc =>
    let json := doc.toJson
    .ok (String.ofList ((if i.compact then json.compact else json.pretty) ++ ['\n']))

variable {m : Type → Type} [Monad m]

/-- The content of the input. -/
def readContent (i : Invocation) (system : System m) : ExceptT Failure m ByteArray :=
  if i.readsStandardInput then system.readStandardInput.adapt .readStandardInput
  else (system.readFile i.input).adapt (.read i.input)

/-- Writes the output where it is wanted. -/
def writeText (i : Invocation) (system : System m) (text : String) : ExceptT Failure m Unit :=
  match i.output with
  | none => (system.print text).adapt .print
  | some path => (system.writeFile path text).adapt (.write path)

/-- Carries out the conversion. Nothing is written before all else went well. -/
def perform (i : Invocation) (system : System m) : ExceptT Failure m Unit := do
  let content ← i.readContent system
  let text ← i.render content
  i.writeText system text

end Invocation

/-! ### Runs -/

/-- Where a run leaves its traces. -/
structure World where
  stdout : String := ""
  files : FileSystem

/-- The operations on a world. What the host does not refuse is done as a whole: a text is printed to its end, and so a
file is written. -/
def World.system (host : Host) (stdin : ByteArray) : System (StateM World) where
  readStandardInput := do
    host.allow .standardInput
    return stdin
  readFile path := do (← get).files.read host path
  print text := do
    host.allow .standardOutput
    modify fun world => { world with stdout := world.stdout ++ text }
  writeFile path text := do
    let files ← (← get).files.write host path text.toUTF8
    modify fun world => { world with files }

/-- The world behind a run, and what the run reports. -/
structure Outcome extends World where
  exit : Nat
  error : Option String

namespace Outcome

def succeeded (world : World) : Outcome := { world with exit := 0, error := none }

def failed (world : World) (failure : Failure) : Outcome := { world with exit := 1, error := some failure.message }

/-- Refused arguments; the usage is shown in place of an error. -/
def refused (world : World) : Outcome := { world with exit := 2, error := none }

end Outcome

/-- A run of the command with the given arguments. -/
def run (files : FileSystem) (stdin : ByteArray) (args : List Text) (host : Host := {}) : Outcome :=
  let world : World := { files }
  let system := World.system host stdin
  match Action.ofArguments args with
  | .error _ => .refused world
  | .ok .showVersion => .succeeded ((system.display versionLine).run world).2
  | .ok .showHelp => .succeeded ((system.display helpText).run world).2
  | .ok (.convert i) =>
    match (i.perform system).run.run world with
    | (.ok (), world) => .succeeded world
    | (.error failure, world) => .failed world failure

end LocatedYaml.Command
