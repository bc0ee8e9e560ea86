import LocatedYaml.Text.Space

/-!
# YAML versions

The version decides how plain scalars are resolved. A `%YAML` directive in front of the document decides it for
that document.
-/

namespace LocatedYaml

inductive Version where
  | v1_1
  | v1_2
  deriving DecidableEq, Repr

namespace Version

instance : Inhabited Version := ⟨.v1_2⟩

def name : Version → String
  | .v1_1 => "1.1"
  | .v1_2 => "1.2"

/-- The version with this name. -/
def ofName? (name : Text) : Option Version :=
  if name = ['1', '.', '1'] then some .v1_1
  else if name = ['1', '.', '2'] then some .v1_2
  else none

/-- What a line says about the version. -/
inductive LineVerdict where
  /-- Blank lines, comments and other directives: the next line decides. -/
  | undecided
  /-- A `%YAML` directive, with the version it names if that is a known one. -/
  | directive (version : Option Version)
  /-- The document has begun. -/
  | document

/-- The verdict of one line, with or without its line break. -/
def judgeLine (line : Text) : LineVerdict :=
  let line := line.trimEnd
  match line with
  | [] => .undecided
  | '#' :: _ => .undecided
  | _ =>
    match Text.dropStart? ['%', 'Y', 'A', 'M', 'L'] line with
    | some rest => .directive (Text.firstWord? rest >>= ofName?)
    | none => if line.head? = some '%' then .undecided else .document

/-- The version that the first deciding line names. -/
def ofLines? : List Text → Option Version
  | [] => none
  | line :: lines =>
    match judgeLine line with
    | .undecided => ofLines? lines
    | .directive version => version
    | .document => none

/-- The version that a `%YAML` directive in front of the document asks for. -/
def ofDirective? (source : Text) : Option Version := ofLines? source.linesWithBreaks

/-- The version that scalars of `source` are resolved with when `chosen` is asked for from outside. -/
def effective (source : Text) (chosen : Version) : Version := (ofDirective? source).getD chosen

end Version

end LocatedYaml
