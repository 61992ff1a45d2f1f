import Retrace.Location

/-!
# Expressions

Expressions only read. Operators are kept as they are written; which symbols have a meaning is for
evaluation (`Eval.Expr`) and for the static rules (`Legality`) to say, so a tree may hold any
symbol.

Every node may carry the place it was read from. Places do not matter for what an expression is:
`Expr.alike` compares two trees without them, and `Expr.bare` takes them away.
-/

namespace Retrace

/-- An expression. -/
inductive Expr where
  /-- an integer literal -/
  | int (loc : Option Location) (value : Int)
  /-- a truth value -/
  | bool (loc : Option Location) (value : Bool)
  /-- a variable; as an argument of a call it may also name a whole array -/
  | var (loc : Option Location) (name : String)
  /-- one element of an array -/
  | elem (loc : Option Location) (name : String) (index : Expr)
  | binary (loc : Option Location) (op : String) (left right : Expr)
  | unary (loc : Option Location) (op : String) (operand : Expr)
  /-- the value of a pure function -/
  | call (loc : Option Location) (name : String) (args : List Expr)
  /-- an update in the place of a value; it is read, so that it can be reported, and never legal -/
  | update (loc : Option Location) (op : String) (target value : Expr)
  /-- a missing expression; no text denotes it -/
  | hole (loc : Option Location)
deriving Inhabited

namespace Expr

/-- Where an expression was read. -/
def loc : Expr → Option Location
  | .int l _ | .bool l _ | .var l _ | .elem l _ _ | .binary l _ _ _ | .unary l _ _ | .call l _ _
  | .update l _ _ _ | .hole l => l

/-- The name of the kind of an expression, as messages about an unexpected kind give it. -/
def kindName : Expr → String
  | .int .. => "IntLiteral"
  | .bool .. => "BoolLiteral"
  | .var .. => "Identifier"
  | .elem .. => "IndexExpr"
  | .binary .. => "BinaryOp"
  | .unary .. => "UnaryOp"
  | .call .. => "FunctionCall"
  | .update .. => "UpdateExpr"
  | .hole .. => "Expr"

/-- Whether an expression names storage: a variable or an element of an array. -/
def isRef : Expr → Bool
  | .var .. | .elem .. => true
  | _ => false

/-- The variable or array that a reference names. -/
def refName? : Expr → Option String
  | .var _ name | .elem _ name _ => some name
  | _ => none

mutual

/-- The names of the variables and arrays of an expression, in the order of the text. -/
def names : Expr → List String
  | .int .. | .bool .. | .hole .. => []
  | .var _ name => [name]
  | .elem _ name index => name :: names index
  | .binary _ _ left right => names left ++ names right
  | .unary _ _ operand => names operand
  | .call _ _ args => namesOfList args
  | .update _ _ target value => names target ++ names value

/-- The names of the variables and arrays of several expressions. -/
def namesOfList : List Expr → List String
  | [] => []
  | e :: es => names e ++ namesOfList es

end

mutual

/-- Whether two expressions are equal but for the places they were read from. -/
def alike : Expr → Expr → Bool
  | .int _ v, .int _ w => v == w
  | .bool _ v, .bool _ w => v == w
  | .var _ n, .var _ m => n == m
  | .elem _ n i, .elem _ m j => n == m && alike i j
  | .binary _ o l r, .binary _ p a b => o == p && alike l a && alike r b
  | .unary _ o e, .unary _ p f => o == p && alike e f
  | .call _ n es, .call _ m fs => n == m && allAlike es fs
  | .update _ o t v, .update _ p u w => o == p && alike t u && alike v w
  | .hole _, .hole _ => true
  | _, _ => false

/-- Whether two lists of expressions are equal but for places. -/
def allAlike : List Expr → List Expr → Bool
  | [], [] => true
  | e :: es, f :: fs => alike e f && allAlike es fs
  | _, _ => false

end

mutual

/-- Whether `term` occurs somewhere in an expression, places aside. -/
def occursIn (term : Expr) : Expr → Bool
  | .elem l n i => alike (.elem l n i) term || occursIn term i
  | .binary l o a b => alike (.binary l o a b) term || occursIn term a || occursIn term b
  | .unary l o e => alike (.unary l o e) term || occursIn term e
  | .call l n args => alike (.call l n args) term || occursInAny term args
  | .update l o t v => alike (.update l o t v) term || occursIn term t || occursIn term v
  | e => alike e term

/-- Whether `term` occurs in one of several expressions. -/
def occursInAny (term : Expr) : List Expr → Bool
  | [] => false
  | e :: es => occursIn term e || occursInAny term es

end

mutual

/-- An expression without places. -/
def bare : Expr → Expr
  | .int _ v => .int none v
  | .bool _ v => .bool none v
  | .var _ n => .var none n
  | .elem _ n i => .elem none n (bare i)
  | .binary _ o l r => .binary none o (bare l) (bare r)
  | .unary _ o e => .unary none o (bare e)
  | .call _ n args => .call none n (bareList args)
  | .update _ o t v => .update none o (bare t) (bare v)
  | .hole _ => .hole none

/-- Several expressions without places. -/
def bareList : List Expr → List Expr
  | [] => []
  | e :: es => bare e :: bareList es

end

end Expr

end Retrace
