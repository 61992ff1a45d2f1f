import Retrace.Fault
import Retrace.Text.Newline

/-!
# File trees

The files that a command can see, as a value: their contents by path, and a working directory.
-/

namespace Retrace

/-- A path from the root of the tree. -/
abbrev Path := List String

/-- Files and directories. -/
structure FileTree where
  /-- how the root is written in front of a path -/
  root : String := ""
  workingDirectory : Path := []
  files : List (Path × String) := []
  directories : List Path := []
deriving Inhabited

namespace FileTree

/-- A path as it is written. -/
def pathText (t : FileTree) (path : Path) : String := t.root ++ "/".intercalate path

/-- Where one part of a written path leads. It may lead outside of the tree. -/
def step (path : Path) (part : String) : Option Path :=
  if part = "" ∨ part = "." then some path
  else if part = ".." then (if path.isEmpty then none else some path.dropLast)
  else some (path ++ [part])

/-- The paths that a written path passes through, beginning with the one where it starts, or
nothing if it leads outside of the tree. -/
def route (path : Path) : List String → Option (List Path)
  | [] => some [path]
  | part :: rest => do return path :: (← route (← step path part) rest)

/-- The paths that a written path passes through. -/
def passed (t : FileTree) (written : String) : Option (List Path) :=
  let parts := written.splitOn "/"
  if written.startsWith "/" then (if t.root = "/" then route [] parts else none)
  else route t.workingDirectory parts

/-- The path that a written path leads to, whether there is something or not. -/
def resolve (t : FileTree) (written : String) : Option Path := do (← t.passed written).getLast?

/-- What the file at a path holds. -/
def content? (t : FileTree) (path : Path) : Option String := t.files.lookup path

/-- Whether there is a directory at a path. -/
def isDirectory (t : FileTree) (path : Path) : Bool :=
  path.isPrefixOf t.workingDirectory || t.directories.any path.isPrefixOf ||
    t.files.any fun file => path.isPrefixOf file.1 && path ≠ file.1

/-- Whether the last name of a path is longer than a name can be. -/
def isTooLong (path : Path) : Bool := path.getLast?.any fun name => 255 < name.utf8ByteSize

/-- The file at the end of a route, where all that comes before has to be a directory. -/
def fileAt (t : FileTree) (written : String) : List Path → Except Fault String
  | [] => .error (.missingFile written)
  | path :: rest =>
    if isTooLong path then .error (.unusable .system)
    else if rest.isEmpty then
      match t.content? path with
      | some text => .ok (Text.unified text)
      | none => .error (if t.isDirectory path then .isDirectory written else .missingFile written)
    else if t.isDirectory path then t.fileAt written rest
    else .error (if (t.content? path).isSome then .notDirectory written else .missingFile written)

/-- The text of a file. A written path holds no null character and is not longer than paths can
be. -/
def read (t : FileTree) (written : String) : Except Fault String :=
  if written.isEmpty then .error (.missingFile written)
  else if written.contains '\x00' then .error (.unusable .value)
  else if 4095 < written.utf8ByteSize then .error (.unusable .system)
  else t.fileAt written ((t.passed written).getD [])

/-- Whether there is a file or a directory at a written path. -/
def has (t : FileTree) (written : String) : Bool :=
  match t.read written with
  | .ok _ | .error (.isDirectory _) => true
  | .error _ => false

end FileTree

end Retrace
