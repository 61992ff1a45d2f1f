import Retrace.Fault
import Retrace.Program.Stmt

/-!
# Procedures and programs

A procedure has parameters, which are storage of its caller, and a body. A program is the list of
procedures of one text.
-/

namespace Retrace

/-- A parameter of a procedure. -/
structure Param where
  name : String
  loc : Option Location := none
deriving DecidableEq, Repr, Inhabited

/-- A procedure. -/
structure Procedure where
  name : String
  params : List Param
  body : List Stmt
  loc : Option Location := none
deriving Inhabited

/-- The procedures of one text. -/
structure Program where
  procedures : List Procedure
  file : String := "<stdin>"
deriving Inhabited

namespace Procedure

/-- The names of the parameters, in order. -/
def paramNames (p : Procedure) : List String := p.params.map Param.name

/-- Whether two procedures are equal but for the places they were read from. -/
def alike (p q : Procedure) : Bool :=
  p.name == q.name && p.paramNames == q.paramNames && Stmt.allAlike p.body q.body

/-- A procedure without places. -/
def bare (p : Procedure) : Procedure :=
  { name := p.name
    params := p.params.map fun param => { name := param.name }
    body := Stmt.bareList p.body }

end Procedure

/-- The first procedure of the given name. -/
def Program.get (program : Program) (name : String) : Except Fault Procedure :=
  match program.procedures.find? fun p => p.name = name with
  | some p => .ok p
  | none => .error (.undefined name (program.procedures.map Procedure.name))

end Retrace
