import LocatedYaml.Lookup
import LocatedYaml.Text.Basic

/-!
# File systems

The files that a command works on, and what can go wrong with a path. Where paths lead and what is refused is for the
host to say; without a word from it the files lie in one directory, without subdirectories.

* `find?_put`: writing a file changes this file only.
-/

namespace LocatedYaml.Command

/-- Why a file, or the standard input or output, cannot be read or written. -/
inductive FileError where
  | notFound
  | isDirectory
  /-- The path goes on behind a file. -/
  | notDirectory
  /-- Anything else, in the words of the operating system. -/
  | other (reason : String)
  deriving DecidableEq, Repr

def FileError.message : FileError → String
  | .notFound => "No such file or directory (os error 2)"
  | .isDirectory => "Is a directory (os error 21)"
  | .notDirectory => "Not a directory (os error 20)"
  | .other reason => reason

/-! ### Paths -/

/-- What a path leads to. -/
inductive Target where
  | directory
  /-- A file, which may not be there yet. -/
  | file (name : Text)
  /-- What would be in a directory of this name; `deeper` if the path goes on behind the slash. -/
  | below (name : Text) (deeper : Bool)
  | outside

/-- An empty part of a path or a single dot leads nowhere else. -/
def Target.staysHere (part : Text) : Bool := part = [] || part = ['.']

/-- The target of a path in a directory without subdirectories, part by part between its slashes. -/
def Target.ofPath (path : Text) : Target :=
  if path.head? = some '/' then .outside
  else
    match (path.splitOn '/').dropWhile staysHere with
    | [] => .directory
    | name :: rest =>
      if name = ['.', '.'] then (if rest.all staysHere then .directory else .outside)
      else if rest = [] then .file name
      else .below name (rest.any (· ≠ []))

/-- What a command may ask of its host. -/
inductive Access where
  | standardInput
  | standardOutput
  | read (path : Text)
  | write (path : Text)

/-- The host of a command. Several paths may lead to one file, and anything may be refused; what is refused has no
effect. -/
structure Host where
  target : Text → Target := .ofPath
  refuses : Access → Option FileError := fun _ => none

/-- Nothing in the way of an access that is not refused. -/
def Host.allow (host : Host) (access : Access) : Except FileError Unit :=
  match host.refuses access with
  | some error => .error error
  | none => .ok ()

/-! ### Files -/

/-- Files by their names, each name once. -/
structure FileSystem where
  files : List (Text × ByteArray) := []

namespace FileSystem

/-- The content of the file with this name. -/
def find? (fs : FileSystem) (name : Text) : Option ByteArray := fs.files.lookup name

/-- The file system with this content under a name. -/
def put (fs : FileSystem) (name : Text) (content : ByteArray) : FileSystem :=
  ⟨(name, content) :: fs.files.filter (·.1 ≠ name)⟩

theorem find?_put (fs : FileSystem) (name other : Text) (content : ByteArray) :
    (fs.put name content).find? other = if other = name then some content else fs.find? other := by
  by_cases h : other = name
  · simp [put, find?, h]
  · rw [if_neg h, put, find?, List.lookup_cons, beq_eq_false_iff_ne.2 h]
    exact lookup_filter_ne h fs.files

/-- The file is there. -/
def contains (fs : FileSystem) (name : Text) : Bool := (fs.find? name).isSome

/-- What stands in the way of a path that goes on behind the name of a file. -/
def obstacle (fs : FileSystem) (name : Text) : FileError := if fs.contains name then .notDirectory else .notFound

/-- The content of the file that a path leads to. -/
def read (fs : FileSystem) (host : Host) (path : Text) : Except FileError ByteArray := do
  host.allow (.read path)
  match host.target path with
  | .directory => .error .isDirectory
  | .outside => .error .notFound
  | .below name _ => .error (fs.obstacle name)
  | .file name =>
    match fs.find? name with
    | some content => .ok content
    | none => .error .notFound

/-- The name of the file that is written under a path. A slash at the end of the path asks for a directory, which
cannot be written. -/
def destination (fs : FileSystem) (host : Host) (path : Text) : Except FileError Text := do
  host.allow (.write path)
  match host.target path with
  | .directory | .below _ false => .error .isDirectory
  | .outside => .error .notFound
  | .below name true => .error (fs.obstacle name)
  | .file name => .ok name

/-- The file system after a file has been written as a whole. -/
def write (fs : FileSystem) (host : Host) (path : Text) (content : ByteArray) : Except FileError FileSystem :=
  (fs.destination host path).map (fs.put · content)

end FileSystem

end LocatedYaml.Command
