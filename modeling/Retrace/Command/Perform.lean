import Retrace.Command.Arguments
import Retrace.Command.Value
import Retrace.Program.Inverse
import Retrace.Registration
import Retrace.Run.Invocation
import Retrace.Settings.File
import Retrace.Source.Parser

/-!
# Performing commands

A command reads a program and checks it, runs one of its procedures or prints inverses. Failures of
the language are part of its output; other faults end it, apart from mistakes in the values and
names that were given for a run.
-/

namespace Retrace.Command

/-- How a command ended. -/
inductive Ending where
  | exit (code : Nat)
  | stopped (stop : Stop)
deriving Inhabited

/-- What a command printed, what it told the log, the last event first, and how it ended. -/
structure Outcome where
  output : String := ""
  log : List Event := []
  ending : Ending := .exit 0
deriving Inhabited

/-- What commands depend on: the files, a solver, and how many steps a run may take. -/
structure Surroundings where
  files : FileTree
  solver : Solver
  fuel : Nat

/-- The steps of a command, which can end early. -/
abbrev Performing := Except Outcome

/-- How to use the program. -/
def usageText : String :=
  "usage: revlang [-h] [--version] [--log-level LEVEL] [--config FILE] [--format FORMAT]\n" ++
    "               \x7bcheck,run,invert\x7d ...\n"

/-- The name and version of the program. -/
def versionText : String := "revlang 0.1.0\n"

/-- A value of a data format on lines of its own. -/
def laidOut (d : Datum) : String := Json.write (some 2) d ++ "\n"

/-- A message about what went wrong. -/
def complaint (message : String) : String :=
  Json.write none (.record [("error", .text message)]) ++ "\n"

/-- A failure of the language as output. -/
def failureText (g : General) (f : Failure) : String :=
  match g.format with
  | .json => laidOut f.toDatum
  | .pretty => String.join (f.records.map fun r => r.render false ++ "\n")

/-- The end of a command that a fault stopped. -/
def stopped (log : List Event) (f : Fault) : Outcome := { log, ending := .stopped (.fault f) }

/-- The end of a command at a failure of the language, which is printed, or at another fault. -/
def failed (g : General) (log : List Event) : Fault → Outcome
  | .failure f => { output := failureText g f, log, ending := .exit 1 }
  | f => stopped log f

/-- The program in a file. -/
def loadProgram (around : Surroundings) (g : General) (file : String) : Performing Program :=
  if around.files.has file then
    match around.files.read file with
    | .error f => .error (stopped [] f)
    | .ok source =>
      match Program.parse source file with
      | .ok program => .ok program
      | .error f => .error (failed g [] f)
  else .error { output := complaint ("File not found: " ++ file), ending := .exit 1 }

/-- The settings for a command. -/
def settingsFor (around : Surroundings) (g : General) (verify : Bool) (intType : Option String) :
    Except Fault Settings := do
  let path ← match g.settings with
    | some none => throw (.unusable .kind)
    | path => pure path.join
  let s ← Settings.load around.files path "."
  let s := if verify then { s with verifyAssertions := true } else s
  match intType with
  | none => return s
  | some name =>
    let s := { s with intType := name }
    s.validate
    return s

/-- An empty library for a command. -/
def libraryFor (around : Surroundings) (g : General) (verify : Bool) (intType : Option String) :
    Performing Library :=
  match settingsFor around g verify intType >>= fun s => Library.empty s [] with
  | .ok lib => .ok lib
  | .error f => .error (stopped [] f)

/-- Whether a fault is a mistake in a value or a name that was given. -/
def isComplaint (f : Fault) : Bool :=
  match f.class? with
  | some .value | some .key => true
  | _ => false

/-- The end of a run at a fault: mistakes in values and names are told, not raised. -/
def runFailed (g : General) (log : List Event) (f : Fault) : Outcome :=
  if isComplaint f then { output := complaint f.message, log, ending := .exit 1 }
  else failed g log f

/-- Checks every procedure of a file. -/
def check (around : Surroundings) (g : General) (file : String) (verify : Bool)
    (intType : Option String) : Performing Outcome := do
  let program ← loadProgram around g file
  let lib ← libraryFor around g verify intType
  match lib.register around.solver program.procedures {} with
  | .error f inquiry => .error (failed g inquiry.log f)
  | .ok _ inquiry =>
    let names := program.procedures.map fun p => Datum.text p.name
    let report := Datum.record [("status", .text "ok"), ("procedures", .list names)]
    return { output := laidOut report, log := inquiry.log }

/-- Runs a procedure of a file over the given values. -/
def run (around : Surroundings) (g : General) (file : String) (procedure : Option String)
    (values : List String) (d : Direction) (verify : Bool) (intType : Option String) :
    Performing Outcome := do
  let program ← loadProgram around g file
  let lib ← libraryFor around g verify intType
  match lib.register around.solver program.procedures {} with
  | .error f inquiry => .error (runFailed g inquiry.log f)
  | .ok lib inquiry =>
    match assignments values with
    | .error f => .error (runFailed g inquiry.log f)
    | .ok values =>
      match procedure with
      | none => .error (runFailed g inquiry.log (.unusable .kind))
      | some procedure =>
        match lib.runValues around.fuel procedure values d inquiry.log with
        | (.ok results, log) => return { output := laidOut (.record results), log }
        | (.error (.fault f), log) => .error (runFailed g log f)
        | (.error .exhausted, log) => .error { log, ending := .stopped .exhausted }

/-- Prints the inverse of one procedure of a file, or of all. -/
def invert (around : Surroundings) (g : General) (file : String) (procedure : Option String) :
    Performing Outcome := do
  let program ← loadProgram around g file
  let chosen ← match procedure with
    | none => pure program.procedures
    | some name =>
      match program.get name with
      | .ok p => pure [p]
      | .error f => .error { output := complaint f.message, ending := .exit 1 }
  match chosen.mapM fun p => p.inverse p.inverseName with
  | .error f => .error (stopped [] f)
  | .ok inverses => return { output := Procedure.texts inverses }

/-- Performs a task. -/
def Task.perform (around : Surroundings) (g : General) : Task → Performing Outcome
  | .check file verify intType => Command.check around g file verify intType
  | .run file procedure values backward verify intType =>
    Command.run around g file procedure values (if backward then .backward else .forward) verify
      intType
  | .invert file procedure => Command.invert around g file procedure

/-- The lines of the log that a command writes. -/
def logLines (g : General) (log : List Event) : List String :=
  (log.reverse.filter fun e => g.level.weight ≤ e.level.weight).map Event.line

/-- The output, the lines of the log and the end of a command. -/
structure Transcript where
  output : String := ""
  log : List String := []
  ending : Ending := .exit 0
deriving Inhabited

/-- Does what a list of arguments asks for. -/
def perform (around : Surroundings) (args : List String) : Transcript :=
  match Request.ofArgs args with
  | .usage code => { output := usageText, ending := .exit code }
  | .version => { output := versionText }
  | .refused => { ending := .exit 2 }
  | .faulty f => { ending := .stopped (.fault f) }
  | .perform g task =>
    let outcome := match task.perform around g with
      | .ok o | .error o => o
    { output := outcome.output, log := logLines g outcome.log, ending := outcome.ending }

end Retrace.Command
