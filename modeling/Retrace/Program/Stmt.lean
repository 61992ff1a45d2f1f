import Retrace.Program.Expr

/-!
# Statements

The statements of the language. Each has a meaning in both directions of a run (`Run.Exec`)
and an inverse (`Program.Inverse`).
-/

namespace Retrace

/-- A statement. -/
inductive Stmt where
  /-- `target op value` -/
  | assign (loc : Option Location) (target : Expr) (op : String) (value : Expr)
  /-- `if guard { ... } else { ... } assert assertion`: the assertion is true at the end exactly if
  the guard was true at the start -/
  | branch (loc : Option Location) (guard : Expr) (thenBody elseBody : List Stmt)
    (assertion : Expr)
  /-- `call callee(args)`, or `uncall callee(args)`, which runs the callee the other way -/
  | call (loc : Option Location) (callee : String) (args : List Expr) (uncall : Bool)
  /-- `local name = value` -/
  | declare (loc : Option Location) (name : String) (value : Expr)
  /-- `delocal name = value` -/
  | discard (loc : Option Location) (name : String) (value : Expr)
  /-- `from entry do { ... } loop { ... } until exit`: the entry condition is true exactly when the
  loop is entered from outside -/
  | loop (loc : Option Location) (entry : Expr) (doBody loopBody : List Stmt) (exit : Expr)
  /-- `left <=> right` -/
  | swap (loc : Option Location) (left right : Expr)
  /-- `{ ... }` -/
  | block (loc : Option Location) (body : List Stmt)
  /-- a missing statement; no text denotes it -/
  | hole (loc : Option Location)
deriving Inhabited

namespace Stmt

/-- Where a statement was read. -/
def loc : Stmt → Option Location
  | .assign l _ _ _ | .branch l _ _ _ _ | .call l _ _ _ | .declare l _ _ | .discard l _ _
  | .loop l _ _ _ _ | .swap l _ _ | .block l _ | .hole l => l

/-- The name of the kind of a missing statement, as messages give it. -/
def holeName : String := "Statement"

/-- Whether a statement is a block. -/
def isBlock : Stmt → Bool
  | .block .. => true
  | _ => false

/-- The lists of statements right inside a statement. -/
def bodies : Stmt → List (List Stmt)
  | .branch _ _ thenBody elseBody _ => [thenBody, elseBody]
  | .loop _ _ doBody loopBody _ => [doBody, loopBody]
  | .block _ body => [body]
  | _ => []

mutual

/-- Whether two statements are equal but for the places they were read from. -/
def alike : Stmt → Stmt → Bool
  | .assign _ t o v, .assign _ u p w => t.alike u && o == p && v.alike w
  | .branch _ g t e a, .branch _ h u f b => g.alike h && allAlike t u && allAlike e f && a.alike b
  | .call _ n es u, .call _ m fs w => n == m && Expr.allAlike es fs && u == w
  | .declare _ n e, .declare _ m f => n == m && e.alike f
  | .discard _ n e, .discard _ m f => n == m && e.alike f
  | .loop _ e d l x, .loop _ f c k y => e.alike f && allAlike d c && allAlike l k && x.alike y
  | .swap _ l r, .swap _ a b => l.alike a && r.alike b
  | .block _ b, .block _ c => allAlike b c
  | .hole _, .hole _ => true
  | _, _ => false

/-- Whether two lists of statements are equal but for places. -/
def allAlike : List Stmt → List Stmt → Bool
  | [], [] => true
  | s :: ss, t :: ts => alike s t && allAlike ss ts
  | _, _ => false

end

mutual

/-- A statement without places. -/
def bare : Stmt → Stmt
  | .assign _ t o v => .assign none t.bare o v.bare
  | .branch _ g t e a => .branch none g.bare (bareList t) (bareList e) a.bare
  | .call _ n args u => .call none n (Expr.bareList args) u
  | .declare _ n e => .declare none n e.bare
  | .discard _ n e => .discard none n e.bare
  | .loop _ e d l x => .loop none e.bare (bareList d) (bareList l) x.bare
  | .swap _ l r => .swap none l.bare r.bare
  | .block _ b => .block none (bareList b)
  | .hole _ => .hole none

/-- Several statements without places. -/
def bareList : List Stmt → List Stmt
  | [] => []
  | s :: ss => bare s :: bareList ss

end

end Stmt

end Retrace
