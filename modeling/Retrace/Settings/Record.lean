import Retrace.Datum.Json
import Retrace.Settings
import Retrace.Text.Integer

/-!
# Settings as data

Settings can be given as a record. Keys that are no setting are ignored. A value of another kind is
converted: anything has a text, and whether it is set or not says whether a choice is made. An
`Entry` is what a value is good for, whatever the format is that it was written in.
-/

namespace Retrace

/-- The integer that a value of a data format stands for. A real number loses its fraction. -/
def Datum.toInteger : Datum → Except Fault Int
  | .int n => .ok n
  | .bool b => .ok (if b then 1 else 0)
  | .real x =>
    match Real.truncate? x with
    | some n => .ok n
    | none => .error (if x.isNaN then .notANumber else .infinite)
  | .text s =>
    match Text.readInteger? s with
    | some n => .ok n
    | none => .error (.badInteger s)
  | d => .error (.noIntegerIn d.kindName)

namespace Settings

/-- What a value is good for as a setting. -/
structure Entry where
  /-- the value as messages show it -/
  text : String
  /-- whether it counts as set -/
  isSet : Bool
  /-- the integer that it stands for -/
  integer : Except Fault Int
  /-- the members of a list as messages show them -/
  members : Option (List String)

/-- What a value of a data format is good for. -/
def Entry.ofDatum (d : Datum) : Entry :=
  { text := d.shown
    isSet := d.isSet
    integer := d.toInteger
    members := match d with
      | .list items => some (items.map Datum.shown)
      | _ => none }

/-- The settings that entries describe; what is not there has its usual value. -/
def ofEntries (entries : List (String × Entry)) : Except Fault Settings := do
  let usual : Settings := {}
  let maxCallDepth ← match Datum.field? "max_call_depth" entries with
    | some e => e.integer
    | none => pure usual.maxCallDepth
  let choice (key : String) (usual : Bool) : Bool :=
    ((Datum.field? key entries).map Entry.isSet).getD usual
  let s : Settings :=
    { intType := ((Datum.field? "int_type" entries).map Entry.text).getD usual.intType
      verifyAssertions := choice "verify_assertions" usual.verifyAssertions
      checkGuardOnBackward := choice "check_guard_on_backward" usual.checkGuardOnBackward
      maxCallDepth
      pureFunctions :=
        ((Datum.field? "pure_functions" entries).bind Entry.members).getD usual.pureFunctions }
  s.validate
  return s

/-- The settings that the fields of a record describe. -/
def ofFields (fields : List (String × Datum)) : Except Fault Settings :=
  ofEntries (fields.map fun (key, d) => (key, .ofDatum d))

end Settings

end Retrace
