import Retrace.Eval.Expr
import Retrace.Memory.Overlap
import Retrace.Number.Update
import Retrace.Run.Machine

/-!
# Running statements

Every statement has a forward and a backward meaning. Blocks are run in the order of their text
forward and in the opposite order backward. A backward run consults no history of the forward run,
only the present state and the statements: an update is undone by the inverse operator, a branch is
chosen by the assertion at its end, a loop exchanges its two conditions, and a local begins where
it ends forward.

`exec` takes a number that bounds how deep statements, calls and iterations nest, so that it is
defined also for loops that never end; running out of it is `Stop.exhausted`, which no rule of the
language produces.
-/

namespace Retrace

/-- One of the two bodies of a conditional. -/
inductive Branch where
  | thenBranch
  | elseBranch
deriving DecidableEq, Repr, Inhabited

namespace Branch

/-- The branch that a condition selects. -/
def of (condition : Bool) : Branch := if condition then .thenBranch else .elseBranch

/-- The name of a branch. -/
def name : Branch → String
  | .thenBranch => "then"
  | .elseBranch => "else"

/-- The body of a branch, out of the two. -/
def body {α : Type} (b : Branch) (thenBody elseBody : α) : α :=
  match b with
  | .thenBranch => thenBody
  | .elseBranch => elseBody

end Branch

namespace Execution

/-! ## Expressions inside a run -/

/-- Where the present expression looks up its names. -/
def scope (lib : Library) : Execution Scope := do
  let m ← get
  return ⟨lib.functions, m.frame, m.heap⟩

/-- Performs a reading, and returns also the slots that it read after those in `before`. -/
def reading {α : Type} (lib : Library) (before : List Slot) (work : Scope → Reading α) :
    Execution (α × List Slot) := do
  match work (← scope lib) before with
  | .ok a reads => return (a, reads)
  | .error f _ => throw (.fault f)

/-- The number that an expression comes to. -/
def number (lib : Library) (e : Expr) : Execution Int := do
  return (← ofExcept ((← scope lib).value e)).toInt

/-- Whether a condition holds. -/
def test (lib : Library) (e : Expr) : Execution Bool := do ofExcept ((← scope lib).test e)

/-- What a slot holds. -/
def readSlot (slot : Slot) : Execution Int := do ofExcept ((← get).heap.read slot)

/-- Puts a value into a slot. -/
def writeSlot (slot : Slot) (value : Int) : Execution Unit := onHeap (Heap.write slot value)

/-! ## Single statements -/

/-- Updates a slot. The slot must not be read to compute the update, nor to locate it. -/
def assign (lib : Library) (d : Direction) (target : Expr) (op : String) (value : Expr) :
    Execution Unit := do
  let update ← ofExcept (Update.ofSymbol op)
  let update := match d with
    | .forward => update
    | .backward => update.inverse
  let (slot, reads) ← reading lib [] fun s => s.locate target
  let (operand, reads) ← reading lib reads fun s => s.eval value
  refuse (Overlap.ofUpdate slot reads (target.refName?.getD ""))
  writeSlot slot (update.apply (← readSlot slot) operand.toInt)

/-- Exchanges the values of two slots. They must differ, and neither may locate the other. -/
def swap (lib : Library) (left right : Expr) : Execution Unit := do
  let (leftSlot, leftReads) ← reading lib [] fun s => s.locate left
  let (rightSlot, rightReads) ← reading lib [] fun s => s.locate right
  let operands := [(left.text, Binding.scalar leftSlot), (right.text, .scalar rightSlot)]
  refuse (Overlap.ofOperands operands)
  refuse (Overlap.ofIndices operands [(left.text, leftReads), (right.text, rightReads)])
  let leftValue ← readSlot leftSlot
  let rightValue ← readSlot rightSlot
  writeSlot leftSlot rightValue
  writeSlot rightSlot leftValue

/-- Begins a local. -/
def introduce (lib : Library) (name : String) (value : Expr) : Execution Unit := do
  let _ ← bind name (← number lib value)

/-- Ends a local, which has to hold the expected value. -/
def remove (lib : Library) (name : String) (value : Expr) : Execution Unit := do
  let expected ← number lib value
  let slot ← ofExcept ((← get).frame.slot name)
  let actual ← readSlot slot
  if actual ≠ expected then violate (.delocalMismatch name actual expected)
  let _ ← unbind name

/-- What the arguments of a call stand for, with the slots read to locate each, both labelled by
the text of the argument. -/
def arguments (lib : Library) :
    List Expr → Execution (List (String × Binding) × List (String × List Slot))
  | [] => return ([], [])
  | arg :: rest => do
    let (b, reads) ← reading lib [] fun s => s.argument arg
    let (bindings, allReads) ← arguments lib rest
    return ((arg.text, b) :: bindings, (arg.text, reads) :: allReads)

/-! ## Statements made of others

These take the meaning of smaller runs as an argument. -/

/-- Runs a block. -/
def block (run : Stmt → Execution Unit) (d : Direction) (body : List Stmt) : Execution Unit :=
  (d.order body).forM run

/-- Runs a conditional. Forward, the guard selects the branch and the assertion has to confirm it;
backward, the assertion selects it, and the guard is compared only where the settings ask for it. -/
def branch (lib : Library) (run : Stmt → Execution Unit) (d : Direction) (guard : Expr)
    (thenBody elseBody : List Stmt) (assertion : Expr) : Execution Unit := do
  match d with
  | .forward =>
    let chosen := Branch.of (← test lib guard)
    block run d (chosen.body thenBody elseBody)
    if Branch.of (← test lib assertion) ≠ chosen then
      violate (.unconfirmed assertion.text chosen.name)
  | .backward =>
    let chosen := Branch.of (← test lib assertion)
    block run d (chosen.body thenBody elseBody)
    if lib.settings.checkGuardOnBackward then
      if Branch.of (← test lib guard) ≠ chosen then
        violate (.unselected guard.text chosen.name)

/-- Repeats the second part of a loop until its last condition holds, where `iteration` counts the
repetitions so far. -/
def repeatUntil (done : Execution Bool) (body : Nat → Execution Unit) :
    Nat → Nat → Execution Unit
  | 0, _ => throw .exhausted
  | fuel + 1, iteration => do
    if ← done then return ()
    body (iteration + 1)
    repeatUntil done body fuel (iteration + 1)

/-- Runs a loop. The first condition has to hold when the loop is entered, and never again; the
loop is left when the last condition holds. Backward exchanges the two conditions. -/
def loop (lib : Library) (run : Stmt → Execution Unit) (fuel : Nat) (d : Direction) (entry : Expr)
    (doBody loopBody : List Stmt) (exit : Expr) : Execution Unit := do
  let (first, last) := match d with
    | .forward => (entry, exit)
    | .backward => (exit, entry)
  if !(← test lib first) then violate (.loopNotEntered first.text)
  block run d doBody
  repeatUntil (test lib last) (fun iteration => do
    block run d loopBody
    if ← test lib first then violate (.loopReentered first.text iteration)
    block run d doBody) fuel 0

/-- Runs a procedure in a frame of its own with its parameters bound to `args`. -/
def runProcedure (lib : Library) (run : Direction → Stmt → Execution Unit) (p : Procedure)
    (args : List Binding) (d : Direction) (depth : Int) : MemoryAction Unit := do
  let limit := lib.settings.maxCallDepth
  if depth > limit then throw (.fault ((Violation.tooDeep depth limit).fault (some p.name)))
  if args.length ≠ p.params.length then
    throw (.fault (.argumentCount p.name p.params.length args.length))
  MemoryAction.inFrame p.name lib.intType depth do
    let frame ← ofExcept ((← get).frame.attachAll (p.paramNames.zip args))
    modify fun m => { m with frame }
    record (.entering depth d p.name)
    block (run d) d p.body

/-- Calls a procedure. The arguments must not overlap, and none may locate another. -/
def call (lib : Library) (run : Direction → Stmt → Execution Unit) (d : Direction)
    (callee : String) (args : List Expr) (uncall : Bool) : Execution Unit := do
  let p ← ofExcept (lib.get callee)
  let (bindings, reads) ← arguments lib args
  refuse (Overlap.ofOperands bindings)
  refuse (Overlap.ofIndices bindings reads)
  let depth := (← get).frame.depth + 1
  onMemory (runProcedure lib run p (bindings.map Prod.snd) (if uncall then d.flip else d) depth)

/-! ## All statements -/

/-- The meaning of a statement, given that of smaller runs. -/
def step (lib : Library) (run : Direction → Stmt → Execution Unit) (fuel : Nat) (d : Direction) :
    Stmt → Execution Unit
  | .assign _ target op value => assign lib d target op value
  | .branch _ guard thenBody elseBody assertion =>
    branch lib (run d) d guard thenBody elseBody assertion
  | .call _ callee args uncall => call lib run d callee args uncall
  | .declare _ name value =>
    match d with
    | .forward => introduce lib name value
    | .backward => remove lib name value
  | .discard _ name value =>
    match d with
    | .forward => remove lib name value
    | .backward => introduce lib name value
  | .loop _ entry doBody loopBody exit => loop lib (run d) fuel d entry doBody loopBody exit
  | .swap _ left right => swap lib left right
  | .block _ body => block (run d) d body
  | .hole _ => throw (.fault (.unknownStatement Stmt.holeName))

/-- Performs the work of a statement. A failure of the language that names no statement yet gets
the name of this one, of its procedure and its place. -/
def annotated (s : Stmt) (work : Execution Unit) : Execution Unit := fun m =>
  match work m with
  | .error (.fault (.failure f)) after =>
    let f := if f.isRun then f.annotate (some after.frame.procedure) (some s.summary) s.loc else f
    .error (.fault (.failure f)) after
  | result => result

/-- Logs a statement that is about to run; blocks have no line of their own. -/
def trace (s : Stmt) : Execution Unit := do
  let frame := (← get).frame
  if !s.isBlock then record (.executing frame.depth frame.procedure s)

/-- Runs a statement. -/
def exec (lib : Library) : Nat → Direction → Stmt → Execution Unit
  | 0, _, _ => throw .exhausted
  | fuel + 1, d, s => do
    trace s
    annotated s (step lib (exec lib fuel) fuel d s)

end Execution

/-- Runs a procedure with its parameters bound to `args`. -/
def Library.run (lib : Library) (fuel : Nat) (p : Procedure) (args : List Binding) (d : Direction)
    (depth : Int) : MemoryAction Unit :=
  Execution.runProcedure lib (Execution.exec lib fuel) p args d depth

end Retrace
