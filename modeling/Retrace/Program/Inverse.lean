import Retrace.Number.Update
import Retrace.Program.Procedure

/-!
# Inverse procedures

The inverse of a procedure does forward what the procedure does backward. It is built statement by
statement: a list of statements is turned round and each statement replaced by its inverse. Guards
and assertions change places, and so do the two conditions of a loop.

A call that names a procedure in `renames` goes to the new name and keeps its direction, since the
new procedure is the inverse already; every other call changes its direction.
-/

namespace Retrace

mutual

/-- The inverse of a statement. -/
def Stmt.inverse (renames : List (String × String)) : Stmt → Except Fault Stmt
  | .assign l target op value => do
    pure (.assign l target (← Update.ofSymbol op).inverse.symbol value)
  | .branch l guard thenBody elseBody assertion => do
    let thenBody ← Stmt.inverseBody renames thenBody
    let elseBody ← Stmt.inverseBody renames elseBody
    pure (.branch l assertion thenBody elseBody guard)
  | .call l callee args uncall =>
    match renames.find? fun entry => entry.1 = callee with
    | some entry => .ok (.call l entry.2 args uncall)
    | none => .ok (.call l callee args !uncall)
  | .declare l name value => .ok (.discard l name value)
  | .discard l name value => .ok (.declare l name value)
  | .loop l entry doBody loopBody exit => do
    let doBody ← Stmt.inverseBody renames doBody
    let loopBody ← Stmt.inverseBody renames loopBody
    pure (.loop l exit doBody loopBody entry)
  | .swap l left right => .ok (.swap l left right)
  | .block l body => do pure (.block l (← Stmt.inverseBody renames body))
  | .hole _ => .error (.notInvertible Stmt.holeName)

/-- The inverses of a list of statements, last statement first. A statement that has no inverse is
reported only if all later ones have one. -/
def Stmt.inverseBody (renames : List (String × String)) : List Stmt → Except Fault (List Stmt)
  | [] => .ok []
  | s :: rest => do
    let rest ← Stmt.inverseBody renames rest
    let s ← Stmt.inverse renames s
    pure (rest ++ [s])

end

/-- The inverse of a procedure, under a new name. Calls of the procedure to itself go to the
inverse; calls to other procedures change their direction. -/
def Procedure.inverse (p : Procedure) (name : String) : Except Fault Procedure := do
  let body ← Stmt.inverseBody [(p.name, name)] p.body
  pure { p with name := name, body := body }

/-- The name that an inverse gets if none is asked for. -/
def Procedure.inverseName (p : Procedure) : String := p.name ++ "_inv"

end Retrace
