/-!
# Data

Values of the formats that settings and arguments come in: nothing, truth values, integers of any
size, binary floating point numbers, texts, lists and records. The entries of a record keep the
order in which they were written; a key that is written again keeps its place and takes the new
value.
-/

namespace Retrace

/-- A value of a data format. -/
inductive Datum where
  | null
  | bool (value : Bool)
  | int (value : Int)
  | real (value : Float)
  | text (value : String)
  | list (items : List Datum)
  | record (fields : List (String × Datum))
deriving Inhabited

namespace Datum

/-- Sets `key` in an association list: in place if present, else at the end. -/
def setField {α : Type} (key : String) (value : α) : List (String × α) → List (String × α)
  | [] => [(key, value)]
  | (k, v) :: rest => if k = key then (k, value) :: rest else (k, v) :: setField key value rest

/-- The value stored under `key` in an association list. -/
def field? {α : Type} (key : String) : List (String × α) → Option α
  | [] => none
  | (k, v) :: rest => if k = key then some v else field? key rest

/-- What was set is found again. -/
theorem field?_setField_self {α : Type} (key : String) (value : α) (fields : List (String × α)) :
    field? key (setField key value fields) = some value := by
  induction fields with
  | nil => simp [setField, field?]
  | cons entry rest ih =>
    by_cases h : entry.1 = key <;> simp [setField, field?, h, ih]

/-- Setting one key leaves the others as they are. -/
theorem field?_setField_of_ne {α : Type} {other key : String} (h : other ≠ key) (value : α)
    (fields : List (String × α)) :
    field? other (setField key value fields) = field? other fields := by
  induction fields with
  | nil => simp [setField, field?, Ne.symm h]
  | cons entry rest ih =>
    by_cases hk : entry.1 = key
    · simp [setField, field?, hk, Ne.symm h]
    · simp [setField, field?, hk, ih]

/-- The entry `key` of a record. -/
def get? (d : Datum) (key : String) : Option Datum :=
  match d with
  | .record fields => field? key fields
  | _ => none

/-- The name of the kind of a value, as messages about a wrong kind give it. -/
def kindName : Datum → String
  | .null => "NoneType"
  | .bool _ => "bool"
  | .int _ => "int"
  | .real _ => "float"
  | .text _ => "str"
  | .list _ => "list"
  | .record _ => "dict"

/-- Whether a value counts as set: not nothing, false, zero or empty. -/
def isSet : Datum → Bool
  | .null => false
  | .bool b => b
  | .int i => i != 0
  | .real x => x != 0.0
  | .text s => !s.isEmpty
  | .list items => !items.isEmpty
  | .record fields => !fields.isEmpty

end Datum

end Retrace
