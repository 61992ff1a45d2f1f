import Retrace.Legality.Check
import Retrace.Symbolic.Verify

/-!
# Registering procedures

Procedures are registered as one unit, so that they may call each other: either all of them are
taken into the library or none. No name may be registered twice, all of them have to be legal, and
where the settings ask for it no assertion may be unconfirmable. `Library.register` gives the larger
library; a `Registry` holds a library in place and is changed by each registration.
-/

namespace Retrace

namespace Library

/-- The records of the procedures whose names are taken, by the library or by an earlier one. -/
def duplicates (taken : List String) : List Procedure → List Record
  | [] => []
  | p :: rest =>
    let found : List Record :=
      if p.name ∈ taken then [Finding.record p.name ⟨.duplicateProcedure p.name, none, p.loc⟩]
      else []
    found ++ duplicates (p.name :: taken) rest

/-- What the procedures of a library may call once some more are in it. -/
def tableWith (lib : Library) (procedures : List Procedure) : Legality.Table :=
  ⟨(lib.procedures ++ procedures).map fun p => (p.name, p.params.length), lib.isPure⟩

/-- Fails if there are records. -/
def refuseRecords (records : List Record) : EStateM Fault Inquiry Unit :=
  match Failure.registration? records with
  | some f => throw (.failure f)
  | none => return ()

/-- Fails if some assertion cannot be confirmed, where the settings ask for it. -/
def verify (lib : Library) (toolkit : Toolkit) (procedures : List Procedure) :
    EStateM Fault Inquiry Unit := do
  if lib.settings.verifyAssertions then
    modify fun inquiry => { inquiry with fresh := 0 }
    let reports ← procedures.mapM fun p => p.verify lib.intType toolkit
    refuseRecords (reports.flatMap Report.records)

/-- Fails unless some procedures may become part of the library, as one unit. -/
def vet (lib : Library) (toolkit : Toolkit) (procedures : List Procedure) :
    EStateM Fault Inquiry Unit := do
  refuseRecords (duplicates lib.names procedures)
  let illegal ← MonadExcept.ofExcept (procedures.mapM (Legality.check (lib.tableWith procedures)))
  refuseRecords illegal.flatten
  lib.verify toolkit procedures

/-- The library with some more procedures. -/
def register (lib : Library) (toolkit : Toolkit) (procedures : List Procedure) :
    EStateM Fault Inquiry Library := do
  lib.vet toolkit procedures
  modify fun inquiry => { inquiry with log := (procedures.map .registered).reverse ++ inquiry.log }
  return { lib with procedures := lib.procedures ++ procedures }

/-- The library in which a procedure is what its name stands for. -/
def store (lib : Library) (p : Procedure) : Library :=
  if lib.has p.name then
    { lib with procedures := lib.procedures.map fun q => if q.name = p.name then p else q }
  else { lib with procedures := lib.procedures ++ [p] }

end Library

/-! ## Registries -/

/-- A library that changes with each registration, and what the analyses have left behind. -/
structure Registry where
  library : Library
  inquiry : Inquiry := {}

namespace Registry

/-- A part of an analysis, in a registry. -/
def inquire {α : Type} (action : EStateM Fault Inquiry α) : EStateM Fault Registry α := fun r =>
  match action r.inquiry with
  | .ok a inquiry => .ok a { r with inquiry }
  | .error f inquiry => .error f { r with inquiry }

/-- Stores one procedure and says so in the log. -/
def store (p : Procedure) : EStateM Fault Registry Unit :=
  modify fun r =>
    { library := r.library.store p
      inquiry := { r.inquiry with log := .registered p :: r.inquiry.log } }

/-- Registers some procedures as one unit: all checks come first, then one procedure is stored after
the other. -/
def register (toolkit : Toolkit) (procedures : List Procedure) : EStateM Fault Registry Unit := do
  let r ← get
  inquire (r.library.vet toolkit procedures)
  procedures.forM store

end Registry

end Retrace
