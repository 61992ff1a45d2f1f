import Retrace.Run.Exec
import Retrace.Symbolic.Encode
import Retrace.Symbolic.Footprint

/-!
# Checking assertions ahead of time

Runs a procedure forward on symbolic values, from parameters about which nothing is known but their
range. At the end of each branch of a conditional the solver is asked whether the branch can be
completed at all, then whether the assertion can confirm it and whether it can fail to. An
assertion that can never confirm a branch is a finding; one that may fail is a warning.

Whatever a call or a loop may write to becomes unknown, and a run that leaves the range of the
integer type ends there. So the constraints of a path leave out no run that gets to its end.
-/

namespace Retrace

namespace Analyzing

/-! ## Writing -/

/-- Lets a reference stand for a value. Every run past a write has written a value in range. -/
def write (s : Subject) (ref : Expr) (v : SymValue) : Analyzing Unit := do
  let v := v.asNumber
  assumeInRange s v
  match ref with
  | .elem _ name index =>
    let a ← lookup s name
    let i := (← encode s index).asNumber
    setVar name (.array (.store (← arrayOf a) (← indexOf i) (← plain v)))
  | .var _ name => setVar name v
  | _ => return ()

/-- Forgets what a reference stands for. -/
def forget (s : Subject) (ref : Expr) : Analyzing Unit := do
  match ref with
  | .elem _ name _ => write s ref (.int (.var (← freshName name)))
  | .var _ name =>
    let v ← freshValue s name
    setVar name v
    if name ∉ s.arrays then assumeInRange s v
  | _ => return ()

/-- Forgets what a reference inside a loop stands for: an index takes many values there. -/
def forgetInLoop (s : Subject) (ref : Expr) : Analyzing Unit := do
  match ref with
  | .elem _ name _ => setVar name (← freshValue s name)
  | _ => forget s ref

/-- What an update makes of the present value. -/
def updated (s : Subject) (op : String) (current operand : SymValue) : Analyzing SymValue := do
  match Update.ofSymbol? op with
  | some .add => let (a, b) ← pair current operand; return .int (.add a b)
  | some .sub => let (a, b) ← pair current operand; return .int (.sub a b)
  | _ => bitwise s .xor current operand

/-! ## Questions -/

/-- Asks the solver. -/
def ask (s : Subject) (constraints : List BoolTerm) : Analyzing Verdict := do
  let verdict := s.solver (← get).queries.length constraints
  modify fun a => { a with queries := ⟨constraints, verdict⟩ :: a.queries }
  return verdict

/-- The values of the parameters in a model, in words. -/
def exampleText (s : Subject) (model : String → String) : String :=
  "\x7b" ++ ", ".intercalate (s.numbers.map fun name =>
    Text.quoted name ++ ": " ++ Text.quoted (model name)) ++ "\x7d"

/-- Asks what is to be known about the assertion at the end of a branch, where `confirms` says that
it confirms the branch. -/
def examine (s : Subject) (stmt : Stmt) (assertion : Expr) (branch : Branch) (confirms : BoolTerm) :
    Analyzing Unit := do
  let path := (← get).constraints
  match ← ask s path with
  | .unsat | .unknown => return ()
  | .sat _ =>
    match ← ask s (path ++ [confirms]) with
    | .unsat =>
      let finding : Finding :=
        ⟨.unconfirmable assertion.text branch.name, some stmt, assertion.loc.or stmt.loc⟩
      modify fun a => { a with findings := a.findings ++ [finding] }
    | .sat _ | .unknown =>
      match ← ask s (path ++ [.not confirms]) with
      | .unsat | .unknown => return ()
      | .sat model =>
        let warning := s.procedure ++ ": assertion '" ++ assertion.text ++
          "' may not confirm the " ++ branch.name ++ " branch, e.g. " ++ exampleText s model
        modify fun a => { a with warnings := a.warnings ++ [warning] }

/-! ## Joining paths -/

/-- The names that stand for something at the end of both branches, depending on the guard. -/
def joinVars (guard : BoolTerm) (thenVars elseVars : List (String × SymValue)) :
    Analyzing (List (String × SymValue)) :=
  thenVars.filterMapM fun (name, v) => do
    match Datum.field? name elseVars with
    | some w => return some (name, ← choose guard v w)
    | none => return none

/-- Joins the ends of two branches that began at `start`. A name that only one of them knows is
forgotten. -/
def join (start thenEnd elseEnd : Analysis) (guard : BoolTerm) : Analyzing Unit := do
  let known (name : String) (a : Analysis) := (Datum.field? name a.vars).isSome
  let untouched := start.vars.filter fun (name, _) => !known name thenEnd && !known name elseEnd
  let joined ← joinVars guard thenEnd.vars elseEnd.vars
  let since (a : Analysis) := a.constraints.drop start.constraints.length
  modify fun a => { a with
    vars := untouched ++ joined
    constraints := start.constraints ++ [.any [.all (since thenEnd), .all (since elseEnd)]] }

/-! ## Statements -/

mutual

/-- Follows a statement. -/
def follow (s : Subject) : Stmt → Analyzing Unit
  | .assign _ target op value => do
    let operand := (← encode s value).asNumber
    let current ← encode s target
    write s target (← updated s op current operand)
  | .swap _ left right => do
    let l ← encode s left
    let r ← encode s right
    write s left r
    write s right l
  | .declare _ name value => do
    let v := (← encode s value).asNumber
    assumeInRange s v
    setVar name v
  | .discard _ name value => do
    let current ← lookup s name
    let expected := (← encode s value).asNumber
    assume (← equal current expected)
    modify fun a => { a with vars := a.vars.filter fun entry => entry.1 ≠ name }
  | .call _ _ args _ => args.forM (forget s)
  | .loop _ _ doBody loopBody exit => do
    (Stmt.modifiedIn doBody ++ Stmt.modifiedIn loopBody).forM (forgetInLoop s)
    assume (← condition (← encode s exit))
  | .block _ body => followAll s body
  | stmt@(.branch _ guard thenBody elseBody assertion) => do
    let chosen ← condition (← encode s guard)
    let start ← get
    assume chosen
    followAll s thenBody
    examine s stmt assertion .thenBranch (← condition (← encode s assertion))
    let thenEnd ← get
    modify fun a => { a with vars := start.vars, constraints := start.constraints }
    assume (.not chosen)
    followAll s elseBody
    examine s stmt assertion .elseBranch (.not (← condition (← encode s assertion)))
    let elseEnd ← get
    join start thenEnd elseEnd chosen
  | .hole _ => return ()

/-- Follows a block. -/
def followAll (s : Subject) : List Stmt → Analyzing Unit
  | [] => return ()
  | stmt :: rest => do
    follow s stmt
    followAll s rest

end

/-- Lets the parameters stand for unknowns in range. -/
def beginPath (s : Subject) : List String → Analyzing Unit
  | [] => return ()
  | name :: rest => do
    let v ← if name.isEmpty then freshValue s name else pure (s.unknownFor name name)
    setVar name v
    if name ∉ s.arrays then assumeInRange s v
    beginPath s rest

end Analyzing

/-- The outcome of the analysis of a procedure. -/
structure Report where
  records : List Record
  warnings : List String
  /-- why the analysis was given up, if it was -/
  rejected : Option String
deriving Inhabited

/-- What an analysis carries on from one procedure to the next: the number of the next unknown, and
the questions and events so far, the last ones first. -/
structure Inquiry where
  fresh : Nat := 0
  queries : List Query := []
  log : List Event := []
deriving Inhabited

/-- Checks every assertion of a procedure. -/
def Procedure.verify (p : Procedure) (intType : IntType) (toolkit : Toolkit) :
    EStateM Fault Inquiry Report := fun inquiry =>
  let arrays := Stmt.arrayNamesOfBlock p.body
  let numbers := p.paramNames.eraseDups.filter fun name => name ∉ arrays
  let subject : Subject := { toolkit with procedure := p.name, intType, arrays, numbers }
  let start : Analysis := { fresh := inquiry.fresh, queries := inquiry.queries }
  let report (a : Analysis) (rejected : Option String) : Report :=
    { records := a.findings.map (Finding.record p.name), warnings := a.warnings, rejected }
  let after (a : Analysis) (rejected : Option String) : Inquiry :=
    let events := a.warnings.map .doubted ++ (rejected.map (Event.unverified p.name)).toList
    { fresh := a.fresh, queries := a.queries, log := events.reverse ++ inquiry.log }
  let work := do
    Analyzing.beginPath subject p.paramNames
    Analyzing.followAll subject p.body
  match work start with
  | .ok _ a => .ok (report a none) (after a none)
  | .error refusal a =>
    match toolkit.reason refusal with
    | .ok reason => .ok (report a (some reason)) (after a (some reason))
    | .error m => .error m.fault (after a none)

end Retrace
