import Retrace.FileTree
import Retrace.Settings.Record
import Retrace.Yaml.Document

/-!
# Settings files

Where settings are looked for and how they are loaded. The nearest settings file is the one in the
directory itself or else the one in the nearest directory above it.
-/

namespace Retrace.Settings

/-- The names of settings files; an earlier one takes precedence. -/
def fileNames : List String := [".revlangrc.yml", ".revlangrc.yaml", ".revlangrc.json"]

/-- The places where settings for a directory are looked for, nearest first. -/
def candidates (directory : Path) : List Path :=
  let levels := (List.range (directory.length + 1)).reverse
  levels.flatMap fun n => fileNames.map fun name => directory.take n ++ [name]

/-- The nearest settings file for a directory. -/
def find? (t : FileTree) (start : String) : Option Path := do
  (candidates (← t.resolve start)).find? fun path => (t.content? path).isSome

/-- What a value of a document is good for. -/
def Entry.ofDocument (d : Yaml.Document) (id : Nat) : Entry :=
  { text := d.shown id, isSet := d.isSet id, integer := d.toInteger id, members := d.members? id }

/-- The entries of the record that a settings file holds, if it holds one. A file without a value
holds an empty record. -/
def fileEntries (path content : String) : Except Fault (Option (List (String × Entry))) := do
  if path.endsWith ".json" then
    if (Text.strip content).isEmpty then return some []
    else match Json.read? content with
      | some (.record fields) => return some (fields.map fun (key, d) => (key, .ofDatum d))
      | some _ => return none
      | none => throw .malformedJson
  else
    match ← Yaml.Document.ofText content with
    | some d => return d.fields?.map (List.map fun (key, id) => (key, .ofDocument d id))
    | none => return some []

/-- The settings in the file at a path, which has to hold a record. -/
def ofFile (t : FileTree) (path : String) : Except Fault Settings := do
  match ← fileEntries path (← t.read path) with
  | some entries => ofEntries entries
  | none => throw (.notMapping path)

/-- The settings in the given file, or else in the nearest settings file, or else the usual ones. -/
def load (t : FileTree) (path : Option String) (start : String) : Except Fault Settings :=
  match path, find? t start with
  | some path, _ => ofFile t path
  | none, some path => ofFile t (t.pathText path)
  | none, none => .ok {}

end Retrace.Settings
