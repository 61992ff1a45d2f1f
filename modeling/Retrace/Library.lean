import Retrace.Program.Procedure
import Retrace.Settings

/-!
# Libraries of procedures

A library holds the procedures that were registered, in the order of their registration, and what
runs of them depend on: the settings, the integer type of slots and the host functions.
-/

namespace Retrace

/-- Registered procedures, and what their runs depend on. -/
structure Library where
  settings : Settings
  intType : IntType
  functions : List (String × HostFunction)
  procedures : List Procedure := []

namespace Library

/-- A library without procedures that offers the chosen built-in functions and further ones. -/
def empty (settings : Settings) (further : List (String × HostFunction)) :
    Except Fault Library := do
  let functions ← HostFunction.select settings.pureFunctions further
  let intType ← IntType.ofName settings.intType
  pure { settings, intType, functions }

/-- The names of the procedures, in the order of their registration. -/
def names (lib : Library) : List String := lib.procedures.map Procedure.name

/-- Whether a procedure of the given name is registered. -/
def has (lib : Library) (name : String) : Bool := lib.procedures.any fun p => p.name == name

/-- The procedure of a name, if it is registered. -/
def find? (lib : Library) (name : String) : Option Procedure :=
  lib.procedures.find? fun p => p.name == name

/-- The procedure of a name. -/
def get (lib : Library) (name : String) : Except Fault Procedure :=
  match lib.find? name with
  | some p => .ok p
  | none => .error (.unregistered name (lib.names.mergeSort fun a b => a ≤ b))

/-- Whether expressions may call a function of the given name. -/
def isPure (lib : Library) (name : String) : Bool := lib.functions.any fun f => f.1 == name

end Library

end Retrace
