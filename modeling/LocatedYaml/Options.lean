import LocatedYaml.Json.Reader
import LocatedYaml.Version

/-!
# Options

What the caller chooses for a load. Options are read from the text of a JSON object whose only known member is
`version`; other members are skipped, and a second `version` is refused.
-/

namespace LocatedYaml

structure Options where
  /-- The version for sources without a `%YAML` directive. -/
  version : Version := .v1_2
  deriving DecidableEq, Repr

namespace Options

instance : Inhabited Options := ⟨{}⟩

/-- A version: its name as a string, or an object whose only member has that name and the value null. -/
def readVersion? (t : Text) : Option (Version × Text) :=
  match Json.skipSpace t with
  | '{' :: t => do
    let (name, t) ← Json.readString? (Json.skipSpace t)
    let version ← Version.ofName? name
    let t ← Text.dropStart? [':'] (Json.skipSpace t)
    let t ← Text.dropStart? "null".toList (Json.skipSpace t)
    let t ← Text.dropStart? ['}'] (Json.skipSpace t)
    some (version, t)
  | t => do
    let (name, t) ← Json.readString? t
    let version ← Version.ofName? name
    some (version, t)

/-- The members of an object up to its closing bracket; `found` is the version read so far. -/
def readMembers? : Nat → Option Version → Text → Option (Option Version × Text)
  | 0, _, _ => none
  | fuel + 1, found, t => do
    let (name, t) ← Json.readString? (Json.skipSpace t)
    let t ← Text.dropStart? [':'] (Json.skipSpace t)
    let (found, t) ←
      if name = "version".toList then
        match found with
        | some _ => none
        | none => (readVersion? t).map fun (version, t) => (some version, t)
      else (Json.skipAny? t).map fun t => (found, t)
    match Json.skipSpace t with
    | ',' :: t => readMembers? fuel found t
    | '}' :: t => some (found, t)
    | _ => none

/-- The options in a JSON text. -/
def ofJson? (t : Text) : Option Options := do
  let t ← Text.dropStart? ['{'] (Json.skipSpace t)
  let (found, t) ←
    match Json.skipSpace t with
    | '}' :: t => some (none, t)
    | t => readMembers? (t.length + 1) none t
  if Json.skipSpace t = [] then some ⟨found.getD .v1_2⟩ else none

/-- The options as a JSON value. -/
def toJson (options : Options) : Json := .record [("version", .ofString options.version.name)]

end Options

end LocatedYaml
