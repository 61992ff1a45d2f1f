import Retrace.Command.Perform

/-!
# The command line

Reads the files that a command can see, performs it, and writes what it says. No solver is attached
here: every question about an assertion stays open.
-/

open Retrace

/-- What is at a path: a file with its text, or a directory. -/
def fetch (path : String) : IO (Option (Option String)) := do
  let place := (← IO.currentDir) / path
  if ← place.isDir then return some none
  else if ← place.pathExists then return some (some (← IO.FS.readFile place))
  else return none

/-- The operands and option values among the arguments, which may name files. -/
def namedFiles (args : List String) : List String :=
  match Command.Request.ofArgs args with
  | .perform g task =>
    let file := match task with
      | .check file _ _ | .run file _ _ _ _ _ | .invert file _ => file
    file :: g.settings.join.toList
  | _ => []

/-- The part of the file system that a command can see. -/
def survey (args : List String) : IO FileTree := do
  let here := (← IO.currentDir).toString
  let empty : FileTree := { root := "/" }
  let directory := (empty.resolve here).getD []
  let tree := { empty with workingDirectory := directory }
  let named := (namedFiles args).flatMap fun file => (tree.passed file).getD []
  let paths := named ++ Settings.candidates directory
  paths.foldlM (fun tree path => do
    match ← fetch (tree.pathText path) with
    | some (some text) => return { tree with files := (path, text) :: tree.files }
    | some none => return { tree with directories := path :: tree.directories }
    | none => return tree) tree

/-- More steps than any run takes before it is stopped by hand. -/
def ampleFuel : Nat := 1000000000000000000

/-- Performs the command that the arguments ask for. -/
def main (args : List String) : IO UInt32 := do
  let files ← survey args
  let report := Command.perform { files, solver := fun _ _ => .unknown, fuel := ampleFuel } args
  IO.print report.output
  for line in report.log do
    IO.eprintln line
  match report.ending with
  | .exit code => return code.toUInt32
  | .stopped (.fault f) =>
    IO.eprintln (f.label ++ ": " ++ f.message)
    return 1
  | .stopped .exhausted => return 1
