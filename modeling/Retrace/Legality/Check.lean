import Retrace.Legality.Breach
import Retrace.Number.Update
import Retrace.Program.Operator

/-!
# The legality check

Walks a procedure once, before it is registered, and finds every construct that could not be run
backward: operators without an inverse, updates that read what they write, calls of what is not a
registered procedure, and locals that do not begin and end in one block.

Names are visible in the block that declares them and in the blocks inside it. `blockFindings`
carries the names of the enclosing blocks, those of its own block and the locals that have not
ended yet; whatever has not ended at the end of the block is a finding.
-/

namespace Retrace

mutual

/-- Whether a statement is missing somewhere in a statement. -/
def Stmt.hasHole : Stmt → Bool
  | .branch _ _ thenBody elseBody _ => anyHole thenBody || anyHole elseBody
  | .loop _ _ doBody loopBody _ => anyHole doBody || anyHole loopBody
  | .block _ body => anyHole body
  | .hole _ => true
  | .assign .. | .call .. | .declare .. | .discard .. | .swap .. => false

/-- Whether a statement is missing somewhere in some statements. -/
def Stmt.anyHole : List Stmt → Bool
  | [] => false
  | s :: rest => hasHole s || anyHole rest

end

namespace Legality

/-- What calls may target: procedures with their numbers of parameters, and host functions. -/
structure Table where
  arities : List (String × Nat)
  isPure : String → Bool

/-! ## Expressions -/

mutual

/-- The breaches in an expression, each with its place. -/
def exprBreaches (t : Table) : Expr → List (Breach × Option Location)
  | .int .. | .bool .. | .var .. | .hole _ => []
  | .elem _ _ index => exprBreaches t index
  | .binary loc op left right =>
    (if (BinaryOp.ofSymbol? op).isSome then [] else [(.illegalOperator op, loc)]) ++
      exprBreaches t left ++ exprBreaches t right
  | .unary loc op operand =>
    (if (UnaryOp.ofSymbol? op).isSome then [] else [(.illegalOperator op, loc)]) ++
      exprBreaches t operand
  | .call loc name args =>
    let defect : CallDefect :=
      if (Datum.field? name t.arities).isSome then .procedureAsValue else .impure
    (if t.isPure name then [] else [(.irreversibleCall name defect, loc)]) ++ argBreaches t args
  | .update loc op target value =>
    (.mutation op, loc) :: exprBreaches t target ++ exprBreaches t value

/-- The breaches in some expressions. -/
def argBreaches (t : Table) : List Expr → List (Breach × Option Location)
  | [] => []
  | e :: rest => exprBreaches t e ++ argBreaches t rest

end

/-! ## Single statements -/

/-- A finding about a whole statement. -/
def about (s : Stmt) (breach : Breach) : Finding := ⟨breach, some s, s.loc⟩

/-- The findings in an expression of a statement. -/
def within (t : Table) (s : Stmt) (e : Expr) : List Finding :=
  (exprBreaches t e).map fun (breach, place) => ⟨breach, some s, place.or s.loc⟩

/-- Whether computing `value` would read what an update of `target` writes. -/
def selfAliased (target value : Expr) : Bool :=
  target.occursIn value ||
    match target with
    | .var _ name => value.names.contains name
    | _ => false

/-- The name that stands for a reference in findings. -/
def refLabel (e : Expr) : String := e.refName?.getD "<expr>"

/-- The findings in an assignment. -/
def assignFindings (t : Table) (s : Stmt) (target : Expr) (op : String) (value : Expr) :
    List Finding :=
  (if (Update.ofSymbol? op).isSome then [] else [about s (.illegalOperator op)]) ++
    if target.isRef then
      within t s target ++ within t s value ++
        (if selfAliased target value then [about s (.selfAliased (refLabel target))] else [])
    else [about s .fixedTarget]

/-- The findings in a swap. -/
def swapFindings (t : Table) (s : Stmt) (left right : Expr) : List Finding :=
  let operand (e : Expr) := if e.isRef then within t s e else []
  operand left ++ operand right ++
    (if left.alike right then [about s (.selfAliased (refLabel left))] else [])

/-- The findings in a call. -/
def callFindings (t : Table) (s : Stmt) (callee : String) (args : List Expr) : List Finding :=
  let target := match Datum.field? callee t.arities with
    | none =>
      let defect := if t.isPure callee then .hostProcedure else .unregistered
      [about s (.irreversibleCall callee defect)]
    | some expected =>
      if expected = args.length then [] else [about s (.arity callee expected args.length)]
  target ++ args.flatMap fun arg =>
    if arg.isRef then within t s arg else [about s (.irreversibleCall callee .argumentForm)]

/-! ## Blocks -/

/-- Adds a name to those of a block. -/
def declared (name : String) (names : List String) : List String :=
  if name ∈ names then names else name :: names

/-- The locals that are left when the first of the given name ends. -/
def ended (name : String) (locals : List (String × Stmt)) : List (String × Stmt) :=
  locals.eraseP fun entry => entry.1 = name

mutual

/-- The findings in a statement that neither begins nor ends a local, where `visible` are the names
that it can see. -/
def stmtFindings (t : Table) (visible : List String) : Stmt → List Finding
  | s@(.assign _ target op value) => assignFindings t s target op value
  | s@(.swap _ left right) => swapFindings t s left right
  | s@(.call _ callee args _) => callFindings t s callee args
  | s@(.branch _ guard thenBody elseBody assertion) =>
    within t s guard ++ within t s assertion ++
      blockFindings t visible [] [] thenBody ++ blockFindings t visible [] [] elseBody
  | s@(.loop _ entry doBody loopBody exit) =>
    within t s entry ++ within t s exit ++
      blockFindings t visible [] [] doBody ++ blockFindings t visible [] [] loopBody
  | .block _ body => blockFindings t visible [] [] body
  | .declare .. | .discard .. | .hole _ => []

/-- The findings in the rest of a block: `outer` are the names of the enclosing blocks, `names`
those of this one, and `locals` those that have begun and not ended, with the statements that began
them. -/
def blockFindings (t : Table) (outer names : List String) (locals : List (String × Stmt)) :
    List Stmt → List Finding
  | [] => locals.map fun (name, s) => about s (.kept name)
  | .declare loc name value :: rest =>
    let s := Stmt.declare loc name value
    within t s value ++
      (if name ∈ outer ∨ name ∈ names then [about s (.shadowing name)] else []) ++
      blockFindings t outer (declared name names) (locals ++ [(name, s)]) rest
  | .discard loc name value :: rest =>
    let s := Stmt.discard loc name value
    within t s value ++
      if locals.any fun entry => entry.1 = name then
        (if name ∈ value.names then [about s (.selfAliased name)] else []) ++
          blockFindings t outer (names.filter fun other => other ≠ name) (ended name locals) rest
      else about s (.foreignDelocal name) :: blockFindings t outer names locals rest
  | s :: rest => stmtFindings t (names ++ outer) s ++ blockFindings t outer names locals rest

end

/-! ## Procedures -/

/-- The findings about repeated parameters, where `before` are the names of earlier ones. -/
def paramFindings (before : List String) : List Param → List Finding
  | [] => []
  | p :: rest =>
    (if p.name ∈ before then [⟨.repeatedParameter p.name, none, p.loc⟩] else []) ++
      paramFindings (declared p.name before) rest

/-- All findings in a procedure. -/
def findings (t : Table) (p : Procedure) : List Finding :=
  paramFindings [] p.params ++
    blockFindings t [] (p.paramNames.foldl (fun names name => declared name names) []) [] p.body

/-- The records of all findings in a procedure. A missing statement cannot be checked. -/
def check (t : Table) (p : Procedure) : Except Fault (List Record) :=
  if Stmt.anyHole p.body then .error (.unknownStatement Stmt.holeName)
  else .ok ((findings t p).map (Finding.record p.name))

end Legality

end Retrace
