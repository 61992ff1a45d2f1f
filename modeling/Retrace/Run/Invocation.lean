import Retrace.Run.Exec

/-!
# Invocations

One run of a registered procedure over storage of the caller. An invocation runs once. If the run
fails, the stores of its arguments are left poisoned, and no invocation on them runs until they are
restored or cleared.
-/

namespace Retrace

/-- How far an invocation has come. -/
inductive Progress where
  | ready
  | completed
  | failed
deriving DecidableEq, Repr, Inhabited

/-- The name of a stage. -/
def Progress.name : Progress → String
  | .ready => "ready"
  | .completed => "completed"
  | .failed => "failed"

/-- One run of a procedure. -/
structure Invocation where
  procedure : Procedure
  args : List Binding
  direction : Direction
  progress : Progress := .ready
  /-- the failure that the run ended with -/
  error : Option Failure := none
deriving Inhabited

namespace Invocation

/-- The stores of the arguments. -/
def stores (i : Invocation) : List Nat := Binding.storesOf i.args

/-- A short description of an invocation. -/
def shown (i : Invocation) : String :=
  "<Invocation " ++ i.direction.name ++ " " ++ i.procedure.name ++ ": " ++ i.progress.name ++ ">"

/-- Why a fault made a run fail, in a word: the rule that was broken, or the class of the fault. -/
def reason : Fault → String
  | .failure f =>
    match f.isRun, f.records with
    | true, r :: _ => r.rule.name
    | _, _ => f.kind.label
  | f => f.label

/-- The failure of the language that a fault is. -/
def failure? : Fault → Option Failure
  | .failure f => if f.isRun then some f else none
  | _ => none

/-- Runs an invocation. -/
def run (lib : Library) (fuel : Nat) : EStateM Stop (Invocation × Memory) Unit := fun (i, m) =>
  let refuse (v : Violation) : Stop := .fault (v.fault (some i.procedure.name))
  if i.progress ≠ .ready then .error (refuse (.notReady i.procedure.name i.progress.name)) (i, m)
  else if i.stores.any fun id => (m.heap.store id).poisoned then
    .error (refuse .poisoned) ({ i with progress := .failed }, m)
  else
    match lib.run fuel i.procedure i.args i.direction 0 m with
    | .ok _ m => .ok () ({ i with progress := .completed }, m)
    | .error .exhausted m => .error .exhausted (i, m)
    | .error (.fault f) m =>
      let after : Memory :=
        { heap := m.heap.poison i.stores
          log := .failed i.direction i.procedure.name (reason f) :: m.log }
      .error (.fault f) ({ i with progress := .failed, error := failure? f }, after)

end Invocation

namespace Library

/-- An invocation of a registered procedure. -/
def invoke (lib : Library) (name : String) (args : List Binding) (d : Direction) :
    Except Fault Invocation := do
  return { procedure := ← lib.get name, args, direction := d }

/-- Runs a registered procedure once. -/
def runNamed (lib : Library) (fuel : Nat) (name : String) (args : List Binding) (d : Direction) :
    MemoryAction Unit := fun m =>
  match lib.invoke name args d with
  | .error f => .error (.fault f) m
  | .ok i =>
    match Invocation.run lib fuel (i, m) with
    | .ok _ (_, m) => .ok () m
    | .error stop (_, m) => .error stop m

/-- The members that a value of a data format has as an array. -/
def members : Datum → Except Fault (List Datum)
  | .list items => .ok items
  | .text s => .ok (s.toList.map fun c => .text (String.singleton c))
  | .record fields => .ok (fields.map fun field => .text field.1)
  | d => .error (.notIterable d.kindName)

/-- Allocates the value of a parameter: a number as one slot, anything else as an array. -/
def allocParam (id : Nat) : Datum → EStateM Fault Heap Binding
  | d@(.int _) | d@(.bool _) => do return .scalar ⟨id, ← Heap.within id (Store.allocDatum d)⟩
  | d => do
    let items ← MonadExcept.ofExcept (members d)
    return .array ((← Heap.within id (Store.allocMany items)).map (⟨id, ·⟩))

/-- Runs a procedure over fresh slots that hold the given values, and returns the last value of
every parameter. -/
def runValues (lib : Library) (fuel : Nat) (name : String) (values : List (String × Datum))
    (d : Direction) (log : List Event) : Except Stop (List (String × Datum)) × List Event :=
  let refused (f : Fault) := (.error (.fault f), log)
  match lib.get name with
  | .error f => refused f
  | .ok p =>
    let params := p.paramNames
    let missing := params.filter fun param => (Datum.field? param values).isNone
    let unexpected := (values.map Prod.fst).filter fun key => key ∉ params
    if !missing.isEmpty || !unexpected.isEmpty then
      refused (.wrongParameters name params missing unexpected)
    else
      let work := params.mapM fun param => allocParam 0 ((Datum.field? param values).getD .null)
      match work ⟨#[{ intType := lib.intType }]⟩ with
      | .error f _ => refused f
      | .ok args heap =>
        match lib.runNamed fuel name args d { heap, log } with
        | .error stop m => (.error stop, m.log)
        | .ok _ m =>
          match (params.zip args).mapM fun (param, b) => do pure (param, ← b.read m.heap) with
          | .error f => (.error (.fault f), m.log)
          | .ok results => (.ok results, m.log)

end Library

end Retrace
