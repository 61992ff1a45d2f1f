import Retrace.Program.Stmt

/-!
# What a block touches

The names that a block uses as arrays, and the references that it may write to, those of nested
blocks included.
-/

namespace Retrace

mutual

/-- The names that are used with an index in an expression. -/
def Expr.arrayNames : Expr → List String
  | .elem _ name index => name :: arrayNames index
  | .binary _ _ left right => arrayNames left ++ arrayNames right
  | .unary _ _ operand => arrayNames operand
  | .call _ _ args => arrayNamesOfList args
  | .int .. | .bool .. | .var .. | .update .. | .hole _ => []

/-- The names that are used with an index in some expressions. -/
def Expr.arrayNamesOfList : List Expr → List String
  | [] => []
  | e :: rest => arrayNames e ++ arrayNamesOfList rest

end

mutual

/-- The names that are used with an index in a statement. -/
def Stmt.arrayNames : Stmt → List String
  | .assign _ target _ value => target.arrayNames ++ value.arrayNames
  | .swap _ left right => left.arrayNames ++ right.arrayNames
  | .call _ _ args _ => Expr.arrayNamesOfList args
  | .declare _ _ value | .discard _ _ value => value.arrayNames
  | .branch _ guard thenBody elseBody assertion =>
    guard.arrayNames ++ assertion.arrayNames ++ arrayNamesOfBlock thenBody ++
      arrayNamesOfBlock elseBody
  | .loop _ entry doBody loopBody exit =>
    entry.arrayNames ++ exit.arrayNames ++ arrayNamesOfBlock doBody ++ arrayNamesOfBlock loopBody
  | .block _ body => arrayNamesOfBlock body
  | .hole _ => []

/-- The names that are used with an index in a block. -/
def Stmt.arrayNamesOfBlock : List Stmt → List String
  | [] => []
  | s :: rest => arrayNames s ++ arrayNamesOfBlock rest

end

mutual

/-- The references that a statement may write to. -/
def Stmt.modified : Stmt → List Expr
  | .assign _ target _ _ => [target]
  | .swap _ left right => [left, right]
  | .call _ _ args _ => args
  | .branch _ _ thenBody elseBody _ => modifiedIn thenBody ++ modifiedIn elseBody
  | .loop _ _ doBody loopBody _ => modifiedIn doBody ++ modifiedIn loopBody
  | .block _ body => modifiedIn body
  | .declare .. | .discard .. | .hole _ => []

/-- The references that a block may write to. -/
def Stmt.modifiedIn : List Stmt → List Expr
  | [] => []
  | s :: rest => modified s ++ modifiedIn rest

end

end Retrace
