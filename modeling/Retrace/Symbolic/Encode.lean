import Retrace.Legality.Breach
import Retrace.Program.Operator
import Retrace.Symbolic.Toolkit

/-!
# Expressions as symbolic terms

An analysis follows one path through a procedure: it holds what each name stands for symbolically,
and the constraints that every run along the path satisfies. Encoding an expression adds the facts
that hold for every run past it: elements are in range, divisors are not zero, shift counts are
below the width. What has no exact encoding becomes a fresh unknown, so that no run is excluded.

An encoding is given up where values do not fit together. What comes of that is up to the toolkit.
-/

namespace Retrace

/-- A question that was put to the solver, and its answer. -/
structure Query where
  constraints : List BoolTerm
  verdict : Verdict
deriving Inhabited

/-- An analysis under way. -/
structure Analysis where
  /-- the number of the next fresh unknown -/
  fresh : Nat := 0
  /-- what names stand for on the present path -/
  vars : List (String × SymValue) := []
  /-- what holds on the present path -/
  constraints : List BoolTerm := []
  /-- the questions so far, the last one first -/
  queries : List Query := []
  findings : List Finding := []
  warnings : List String := []
deriving Inhabited

/-- Steps of an analysis. Questions and findings outlive a refusal. -/
abbrev Analyzing := EStateM Refusal Analysis

/-- What does not change during the analysis of a procedure. -/
structure Subject extends Toolkit where
  procedure : String
  intType : IntType
  /-- the names that are used as arrays -/
  arrays : List String
  /-- the parameters that are numbers -/
  numbers : List String

/-- The unknown with the given label that a name stands for: an array, if it is used as one. -/
def Subject.unknownFor (s : Subject) (name label : String) : SymValue :=
  if name ∈ s.arrays then .array (.var label) else .int (.var label)

namespace Analyzing

/-! ## Paths -/

/-- Adds a constraint to the path. -/
def assume (c : BoolTerm) : Analyzing Unit :=
  modify fun a => { a with constraints := a.constraints ++ [c] }

/-- Lets a name stand for a value. -/
def setVar (name : String) (v : SymValue) : Analyzing Unit :=
  modify fun a => { a with vars := Datum.setField name v a.vars }

/-- A name for a fresh unknown. -/
def freshName (stem : String) : Analyzing String := do
  let n := (← get).fresh
  set { ← get with fresh := n + 1 }
  return stem ++ "!" ++ toString n

/-- An unknown number. -/
def unknown : Analyzing SymValue := do return .int (.var (← freshName "unknown"))

/-- A fresh unknown for a name. -/
def freshValue (s : Subject) (name : String) : Analyzing SymValue := do
  return s.unknownFor name (← freshName name)

/-- Adds the fact that a value is in range. Arrays have no range. -/
def assumeInRange (s : Subject) : SymValue → Analyzing Unit
  | .int t => assume (t.inRange s.intType)
  | .bool t => throw (.misfit (.range (.bool t)))
  | .array t => throw (.misfit (.range (.array t)))

/-- What a name stands for; a name that is met for the first time stands for an unknown. -/
def lookup (s : Subject) (name : String) : Analyzing SymValue := do
  match Datum.field? name (← get).vars with
  | some v => return v
  | none =>
    let v ← freshValue s name
    setVar name v
    if name ∉ s.arrays then assumeInRange s v
    return v

/-! ## Sorts -/

/-- A value as a condition. -/
def condition : SymValue → Analyzing BoolTerm
  | .bool t => return t
  | .int t => return .ne t (.const 0)
  | .array t => throw (.misfit (.condition (.array t)))

/-- A value that is compared or combined with plain numbers. -/
def plain (v : SymValue) : Analyzing IntTerm :=
  match v.asNumber with
  | .int t => return t
  | _ => throw (.misfit (.operand v))

/-- Two values that are combined with each other. -/
def pair (l r : SymValue) : Analyzing (IntTerm × IntTerm) :=
  match l.asNumber, r.asNumber with
  | .int a, .int b => return (a, b)
  | _, _ => throw (.misfit (.operands l r))

/-- Two numbers that are taken as words. -/
def words (l r : SymValue) : Analyzing (IntTerm × IntTerm) :=
  match l, r with
  | .int a, .int b => return (a, b)
  | _, _ => throw (.misfit (.words l r))

/-- Whether two values are equal; arrays can be compared with each other. -/
def equal (l r : SymValue) : Analyzing BoolTerm :=
  match l, r with
  | .array a, .array b => return .sameArray a b
  | _, _ => do
    let (a, b) ← pair l r
    return .eq a b

/-- Whether two values differ. -/
def unequal (l r : SymValue) : Analyzing BoolTerm :=
  match l, r with
  | .array a, .array b => return .differArray a b
  | _, _ => do
    let (a, b) ← pair l r
    return .ne a b

/-- One of two values, depending on a condition. -/
def choose (c : BoolTerm) (l r : SymValue) : Analyzing SymValue :=
  match l, r with
  | .array a, .array b => return .array (.ite c a b)
  | .int a, .int b => return .int (.ite c a b)
  | _, _ => throw (.misfit (.choice l r))

/-- The array that a value stands for. -/
def arrayOf (v : SymValue) : Analyzing ArrayTerm :=
  match v with
  | .array a => return a
  | _ => throw (.misfit (.array v))

/-- A value as an index. -/
def indexOf (v : SymValue) : Analyzing IntTerm :=
  match v.asNumber with
  | .int t => return t
  | _ => throw (.misfit (.index v))

/-! ## Operators -/

/-- A quotient or a remainder. No run goes on past a divisor of zero. -/
def division (l r : SymValue) : Analyzing (IntTerm × IntTerm × IntTerm) := do
  assume (← condition r)
  let a ← plain l
  let b ← plain r
  return (a, b, a.quotient b)

/-- What a shift by so many places multiplies with or divides by, as the host computes it. -/
def factor (s : Subject) (count : Int) : Analyzing Nat :=
  if count < 0 then throw (.mistake .negativeShift)
  else
    match s.excess? count.toNat with
    | some m => throw (.mistake m)
    | none => return Bits.weight count.toNat

/-- A shift. It is exact if the count is written out. -/
def shift (s : Subject) (left : Bool) (l r : SymValue) : Analyzing SymValue := do
  let count ← plain r
  assume (.all [.le (.const 0) count, .lt count (.const s.intType.bits)])
  match s.literal? count with
  | none => unknown
  | some n =>
    let f ← factor s n
    let a ← plain l
    return .int (if left then .mul a (.const f) else .div a (.const f))

/-- Combines two numbers bit by bit: exact while both fit the integer type, unknown otherwise. -/
def bitwise (s : Subject) (op : BitOp) (l r : SymValue) : Analyzing SymValue := do
  let (a, b) ← words l r
  match s.literal? a, s.literal? b with
  | some m, some n =>
    return .int (.const (match op with
      | .and => Bits.and m n
      | .or => Bits.or m n
      | .xor => Bits.xor m n))
  | _, _ =>
    let other ← freshName "unknown"
    return .int (.ite (.all [a.inRange s.intType, b.inRange s.intType])
      (.bits op s.intType a b) (.var other))

/-- An operator between two values. -/
def binary (s : Subject) (op : BinaryOp) (left right : SymValue) : Analyzing SymValue := do
  let l := left.asNumber
  let r := right.asNumber
  match op, left, right with
  | .both, _, _ => return .bool (.all [← condition left, ← condition right])
  | .either, _, _ => return .bool (.any [← condition left, ← condition right])
  | .eq, .bool a, .bool b => return .bool (.same a b)
  | .ne, .bool a, .bool b => return .bool (.differ a b)
  | .eq, _, _ => return .bool (← equal l r)
  | .ne, _, _ => return .bool (← unequal l r)
  | .div, _, _ => do
    let (_, _, q) ← division l r
    return .int q
  | .rem, _, _ => do
    let (a, b, q) ← division l r
    return .int (.sub a (.mul b q))
  | .shiftLeft, _, _ => shift s true l r
  | .shiftRight, _, _ => shift s false l r
  | .bitAnd, _, _ => bitwise s .and l r
  | .bitOr, _, _ => bitwise s .or l r
  | .bitXor, _, _ => bitwise s .xor l r
  | .add, _, _ => do let (a, b) ← pair l r; return .int (.add a b)
  | .sub, _, _ => do let (a, b) ← pair l r; return .int (.sub a b)
  | .mul, _, _ => do let (a, b) ← pair l r; return .int (.mul a b)
  | .lt, _, _ => do let (a, b) ← pair l r; return .bool (.lt a b)
  | .le, _, _ => do let (a, b) ← pair l r; return .bool (.le a b)
  | .gt, _, _ => do let (a, b) ← pair l r; return .bool (.lt b a)
  | .ge, _, _ => do let (a, b) ← pair l r; return .bool (.le b a)

/-- The least or the greatest of some values. -/
def extreme (least : Bool) (best : SymValue) : List SymValue → Analyzing SymValue
  | [] => return best
  | v :: rest => do
    let (a, b) ← pair v best
    let better := if least then BoolTerm.lt a b else .lt b a
    extreme least (.int (.ite better a b)) rest

/-- A call of a function. Only the built-in ones have a known meaning. -/
def application (name : String) (args : List SymValue) : Analyzing SymValue :=
  match name, args with
  | "abs", [v] => do return .int (← plain v).abs
  | "min", v :: rest => extreme true v rest
  | "max", v :: rest => extreme false v rest
  | _, _ => unknown

/-! ## Expressions -/

mutual

/-- The symbolic value of an expression. -/
def encode (s : Subject) : Expr → Analyzing SymValue
  | .int _ n => return .int (.const n)
  | .bool _ b => return .bool (.const b)
  | .var _ name => lookup s name
  | .elem _ name index => do
    let v ← lookup s name
    let i := (← encode s index).asNumber
    let element := IntTerm.select (← arrayOf v) (← indexOf i)
    assume (element.inRange s.intType)
    return .int element
  | .binary _ op left right => do
    let l ← encode s left
    let r ← encode s right
    match BinaryOp.ofSymbol? op with
    | some op => binary s op l r
    | none => throw (.rejected ("unsupported operator '" ++ op ++ "'"))
  | .unary _ op operand => do
    let v ← encode s operand
    match UnaryOp.ofSymbol? op with
    | some .not => return .bool (.not (← condition v))
    | some .neg => return .int (.neg (← plain v))
    | some .complement => return .int (.sub (.neg (← plain v)) (.const 1))
    | none => unknown
  | .call _ name args => do application name (← encodeAll s args)
  | .update .. => throw (.rejected "mutation inside an expression")
  | .hole _ => unknown

/-- The symbolic values of some expressions, as numbers. -/
def encodeAll (s : Subject) : List Expr → Analyzing (List SymValue)
  | [] => return []
  | e :: rest => do
    let v ← encode s e
    return v.asNumber :: (← encodeAll s rest)

end

end Analyzing

end Retrace
