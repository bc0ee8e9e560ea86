import LocatedYaml.Command.Run

/-!
# The command line program

The operations of the operating system, and the report of failures on the standard error.
-/

namespace LocatedYaml.Command

/-- The reason of a failed file operation. -/
def fileError : IO.Error → FileError
  | .noFileOrDirectory .. => .notFound
  | .inappropriateType _ code _ => if code = 20 then .notDirectory else .isDirectory
  | e => .other (toString e)

/-- An operation whose failure is a value. -/
def attempt {α : Type} (operation : IO α) : ExceptT FileError IO α :=
  ExceptT.mk do
    try return .ok (← operation)
    catch e => return .error (fileError e)

/-- The operations of the operating system. -/
def operatingSystem : System IO where
  readStandardInput := attempt do (← IO.getStdin).readBinToEnd
  readFile path := attempt (IO.FS.readBinFile (String.ofList path))
  print text := attempt do
    let output ← IO.getStdout
    output.putStr text
    output.flush
  writeFile path text := attempt (IO.FS.writeFile (String.ofList path) text)

/-- Carries out what the arguments ask for; the answer is the exit code. -/
def execute (args : List String) : IO UInt32 := do
  match Action.ofArguments (args.map String.toList) with
  | .error _ =>
    IO.eprint (usageLine ++ "\nFor more information, try '--help'.\n")
    return 2
  | .ok .showVersion =>
    operatingSystem.display versionLine
    return 0
  | .ok .showHelp =>
    operatingSystem.display helpText
    return 0
  | .ok (.convert i) =>
    match ← (i.perform operatingSystem).run with
    | .ok () => return 0
    | .error failure =>
      IO.eprintln ("Error: " ++ failure.message)
      return 1

end LocatedYaml.Command

def main (args : List String) : IO UInt32 := LocatedYaml.Command.execute args
