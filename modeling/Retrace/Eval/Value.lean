import Retrace.Fault

/-!
# Values and host functions

What an expression can come to, and the functions that expressions may call. Host functions have
no effect on storage; they may refuse their arguments.
-/

namespace Retrace

/-- The value of an expression. -/
inductive Value where
  | int (n : Int)
  | bool (b : Bool)
deriving DecidableEq, Repr, Inhabited

namespace Value

/-- A value as a number: true is one, false is zero. -/
def toInt : Value → Int
  | .int n => n
  | .bool b => if b then 1 else 0

/-- A value as a condition: whatever is not zero holds. -/
def holds (v : Value) : Bool := v.toInt != 0

end Value

/-- A function that expressions may call. -/
abbrev HostFunction := List Int → Except Fault Int

namespace HostFunction

/-- A function of one number. -/
def unary (name : String) (f : Int → Int) : HostFunction
  | [n] => .ok (f n)
  | _ => .error (.hostArity name)

/-- A function that joins two numbers or more. -/
def joining (name : String) (f : Int → Int → Int) : HostFunction
  | first :: second :: rest => .ok ((second :: rest).foldl f first)
  | _ => .error (.hostArity name)

/-- The functions that every library can offer. -/
def builtins : List (String × HostFunction) :=
  [("abs", unary "abs" fun n => n.natAbs), ("min", joining "min" min),
    ("max", joining "max" max)]

/-- The names of the built-in functions. -/
def builtinNames : List String := builtins.map Prod.fst

/-- The names of the built-in functions, in alphabetical order. -/
def sortedNames : List String := ["abs", "max", "min"]

/-- The built-in functions of the given names, and further ones; a further one takes precedence
over a built-in one of the same name. -/
def select (names : List String) (further : List (String × HostFunction)) :
    Except Fault (List (String × HostFunction)) := do
  let chosen ← names.mapM fun name =>
    match Datum.field? name builtins with
    | some f => .ok (name, f)
    | none => .error (.unknownBuiltin name)
  pure (further ++ chosen)

end HostFunction

end Retrace
