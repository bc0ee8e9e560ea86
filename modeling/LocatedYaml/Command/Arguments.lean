import LocatedYaml.Options

/-!
# Command line arguments

What a list of arguments asks for. Options may stand before and after the input file, each at most once; `--` ends
them. The first argument that asks for the version or for help decides, if nothing was wrong before it.
-/

namespace LocatedYaml.Command

/-- Why arguments are refused. -/
inductive UsageError where
  | unknownArgument
  | missingValue
  | invalidValue
  | unexpectedValue
  | repeated
  deriving DecidableEq, Repr

/-- A conversion that is asked for. -/
structure Invocation where
  /-- The path of the input; `-` is the standard input. -/
  input : Text
  options : Options
  /-- The output is written on a single line. -/
  compact : Bool
  /-- The path of the output; without one it goes to the standard output. -/
  output : Option Text
  deriving DecidableEq, Repr

inductive Action where
  | showVersion
  | showHelp
  | convert (invocation : Invocation)
  deriving DecidableEq, Repr

/-- One thing that the arguments set. -/
inductive Setting where
  | input (path : Text)
  | version (name : Text)
  | compact
  | output (path : Text)

/-- The arguments read so far. -/
structure Given where
  input : Option Text := none
  version : Option Version := none
  compact : Bool := false
  output : Option Text := none

namespace Given

/-- The conversion asked for when no more arguments come. -/
def invocation (given : Given) : Invocation where
  input := given.input.getD ['-']
  options := ⟨given.version.getD .v1_2⟩
  compact := given.compact
  output := given.output

/-- One more setting; none can be made twice. -/
def set (given : Given) : Setting → Except UsageError Given
  | .input path =>
    if path = [] then .error .missingValue
    else if given.input.isSome then .error .unknownArgument
    else .ok { given with input := some path }
  | .version name =>
    match Version.ofName? name with
    | none => .error .invalidValue
    | some version =>
      if given.version.isSome then .error .repeated else .ok { given with version := some version }
  | .compact => if given.compact then .error .repeated else .ok { given with compact := true }
  | .output path =>
    if path = [] then .error .missingValue
    else if given.output.isSome then .error .repeated
    else .ok { given with output := some path }

end Given

/-- An option, with what it does. -/
inductive Flag where
  | showVersion
  | showHelp
  | compact
  /-- An option that needs a value. -/
  | valued (setting : Text → Setting)

def longFlag? (name : Text) : Option Flag :=
  if name = "yaml-version".toList then some (.valued .version)
  else if name = "compact".toList then some .compact
  else if name = "output".toList then some (.valued .output)
  else if name = "version".toList then some .showVersion
  else if name = "help".toList then some .showHelp
  else none

def shortFlag? (letter : Char) : Option Flag :=
  if letter = 'o' then some (.valued .output)
  else if letter = 'V' then some .showVersion
  else if letter = 'h' then some .showHelp
  else none

/-- One argument by its form. -/
inductive Word where
  | separator
  | long (name : Text) (value : Option Text)
  | short (letter : Char) (rest : Text)
  | plain (text : Text)

def Word.ofText (t : Text) : Word :=
  match t with
  | ['-', '-'] => .separator
  | '-' :: '-' :: t =>
    match t.dropWhile (· ≠ '=') with
    | [] => .long t none
    | _ :: value => .long (t.takeWhile (· ≠ '=')) (some value)
  | '-' :: letter :: rest => .short letter rest
  | t => .plain t

/-- The text can be the value of the option in front of it. -/
def isValue (t : Text) : Bool :=
  match t with
  | '-' :: _ :: _ => false
  | _ => true

/-- The value behind the letter of a short option; an equals sign in front of it does not count. -/
def attachedValue? (rest : Text) : Option Text :=
  match rest with
  | [] => none
  | '=' :: value => some value
  | value => some value

/-- What one argument demands. -/
inductive Demand where
  | refuse (error : UsageError)
  | endOptions
  | showVersion
  | showHelp
  | set (setting : Setting)
  /-- The argument behind it is the value. -/
  | setNext (setting : Text → Setting)

/-- The demand of an option, with the value that is attached to it. -/
def Demand.ofFlag : Flag → Option Text → Demand
  | .valued setting, some value => .set (setting value)
  | .valued setting, none => .setNext setting
  | _, some _ => .refuse .unexpectedValue
  | .compact, none => .set .compact
  | .showVersion, none => .showVersion
  | .showHelp, none => .showHelp

/-- What stands behind the letter of an option without a value does not matter. -/
def Demand.ofWord : Word → Demand
  | .separator => .endOptions
  | .plain path => .set (.input path)
  | .long name value =>
    match longFlag? name with
    | none => .refuse .unknownArgument
    | some flag => .ofFlag flag value
  | .short letter rest =>
    match shortFlag? letter with
    | none => .refuse .unknownArgument
    | some (.valued setting) => .ofFlag (.valued setting) (attachedValue? rest)
    | some flag => .ofFlag flag none

/-- The demand of an argument; `ended` tells that the options have ended. -/
def Demand.ofArgument (ended : Bool) (arg : Text) : Demand :=
  .ofWord (if ended then .plain arg else Word.ofText arg)

/-- What the arguments ask for that follow those already read. -/
def parse (given : Given) (ended : Bool) : List Text → Except UsageError Action
  | [] => .ok (.convert given.invocation)
  | arg :: args =>
    match Demand.ofArgument ended arg with
    | .refuse error => .error error
    | .endOptions => parse given true args
    | .showVersion => .ok .showVersion
    | .showHelp => .ok .showHelp
    | .set setting => do parse (← given.set setting) ended args
    | .setNext setting =>
      match args with
      | [] => .error .missingValue
      | value :: args =>
        if isValue value then do parse (← given.set (setting value)) ended args else .error .missingValue

/-- What a list of arguments asks for. -/
def Action.ofArguments (args : List Text) : Except UsageError Action := parse {} false args

end LocatedYaml.Command
