import Retrace.Datum.Json
import Retrace.Failure.Rule
import Retrace.Location

/-!
# Error records

A record says which rule was broken, in words and with details, and where: in which procedure, by
which statement, at which place of the text. The three parts of the place may be missing; a record
that is raised below the level of statements gets them from the statement that was running
(`Record.annotate`).
-/

namespace Retrace

/-- The time at which a record was made. -/
inductive Phase where
  | reading
  | registration
  | run
deriving DecidableEq, Repr, Inhabited

/-- The name of a phase in an error record. -/
def Phase.name : Phase → String
  | .reading => "syntax_error"
  | .registration => "validation_error"
  | .run => "runtime_error"

/-- The phase of a given name. -/
def Phase.ofName? (text : String) : Option Phase :=
  [Phase.reading, .registration, .run].find? fun p => p.name = text

/-- What was broken, and where. -/
structure Record where
  phase : Phase
  rule : Rule
  message : String
  location : Option Location := none
  procedure : Option String := none
  statement : Option String := none
  details : List (String × Datum) := []
deriving Inhabited

namespace Record

/-- A part that is present and not empty. -/
def given? (part : Option String) : Option String := part.filter fun s => !s.isEmpty

/-- A record as data: the parts that are missing or empty are left out. -/
def toDatum (r : Record) : Datum :=
  let head := [("kind", Datum.text r.phase.name), ("rule", .text r.rule.name),
    ("message", .text r.message)]
  let place := match r.location with
    | some l => [("location", Datum.record
        [("file", .text l.file), ("line", .int l.line), ("column", .int l.column)])]
    | none => []
  let procedure := ((given? r.procedure).map fun s => ("procedure", Datum.text s)).toList
  let statement := ((given? r.statement).map fun s => ("statement", Datum.text s)).toList
  let details := if r.details.isEmpty then [] else [("details", Datum.record r.details)]
  .record (head ++ place ++ procedure ++ statement ++ details)

/-- A record on one line. -/
def line (r : Record) : String :=
  let place := match r.location with
    | some l => " at " ++ l.shown
    | none => ""
  let where_ := match given? r.procedure with
    | some p => " in '" ++ p ++ "'"
    | none => ""
  "[" ++ r.rule.name ++ "]" ++ place ++ where_ ++ ": " ++ r.message

/-- Fills in the place of a record that names no statement. What the record already says about the
procedure and the location stays. -/
def annotate (procedure statement : Option String) (location : Option Location) (r : Record) :
    Record :=
  match r.statement with
  | some _ => r
  | none =>
    { r with
      statement := statement
      procedure := (given? r.procedure).or procedure
      location := r.location.or location }

/-- `text` shown in the given terminal style, or plainly. -/
def styled (coloured : Bool) (code text : String) : String :=
  if coloured then "\x1b[" ++ code ++ "m" ++ text ++ "\x1b[0m" else text

/-- A record on several lines, for a reader at a terminal. -/
def render (coloured : Bool) (r : Record) : String :=
  let colour := if r.phase = .reading then "33" else "31"
  let head := styled coloured colour (styled coloured "1" r.rule.name) ++ ": " ++ r.message
  let place := (r.location.map fun l => styled coloured "2" ("  --> " ++ l.shown)).toList
  let procedure :=
    ((given? r.procedure).map fun p => "  in procedure " ++ styled coloured "1" p).toList
  let statement := ((given? r.statement).map fun s => "  | " ++ s).toList
  "\n".intercalate (head :: place ++ procedure ++ statement)

end Record

end Retrace
