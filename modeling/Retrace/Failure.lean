import Retrace.Failure.Record

/-!
# Failures

A failure is one or more error records and the class it belongs to. The classes form a tree: every
failure, the failures of a phase, and below these one class for each rule of that phase.
`Failure.ofRecords` picks the class of the first record's rule where that class lies below the one
asked for.
-/

namespace Retrace

/-- The classes of failures. -/
inductive FailureClass where
  | any
  | reading
  | registration (rule : Option LegalityRule)
  | run (rule : Option RunRule)
deriving DecidableEq, Repr, Inhabited

namespace FailureClass

/-- All classes of failures. -/
def all : List FailureClass :=
  [.any, .reading, .registration none, .run none] ++
    LegalityRule.all.map (fun r => .registration (some r)) ++
      RunRule.all.map (fun r => .run (some r))

/-- The label of a class. -/
def label : FailureClass → String
  | .any => "RevlangError"
  | .reading => "CompileError"
  | .registration none => "ValidationError"
  | .registration (some r) => r.label
  | .run none => "ExecutionError"
  | .run (some r) => r.label

/-- The class of a given label. -/
def ofLabel? (text : String) : Option FailureClass := all.find? fun c => c.label = text

/-- The class of its own that a rule has. -/
def ofRule? : Rule → Option FailureClass
  | .grammar => none
  | .legality r => some (.registration (some r))
  | .run r => some (.run (some r))

/-- Whether a class lies below another one or is the same. -/
def below (c base : FailureClass) : Bool :=
  c = base ||
    match base, c with
    | .any, _ => true
    | .registration none, .registration _ => true
    | .run none, .run _ => true
    | _, _ => false

end FailureClass

/-- Error records and the class they were raised under. -/
structure Failure where
  kind : FailureClass
  records : List Record
deriving Inhabited

namespace Failure

/-- A failure below `base`, of the class of the first record's rule if that lies below `base`. -/
def ofRecords (base : FailureClass) (first : Record) (rest : List Record) : Failure :=
  let kind := match FailureClass.ofRule? first.rule with
    | some c => if c.below base then c else base
    | none => base
  ⟨kind, first :: rest⟩

/-- One line for each record. -/
def shown (f : Failure) : String := "\n".intercalate (f.records.map Record.line)

/-- The records as data. -/
def toDatum (f : Failure) : Datum := .list (f.records.map Record.toDatum)

/-- Fills in the place of the records that name no statement. -/
def annotate (procedure statement : Option String) (location : Option Location) (f : Failure) :
    Failure :=
  { f with records := f.records.map (Record.annotate procedure statement location) }

/-- Whether the failure arose while a procedure ran. -/
def isRun (f : Failure) : Bool := f.kind.below (.run none)

end Failure

/-- The failure to read a text, at a place. -/
def Failure.reading (message : String) (location : Location) : Failure :=
  ⟨.reading, [{ phase := .reading, rule := .grammar, message, location := some location }]⟩

end Retrace
