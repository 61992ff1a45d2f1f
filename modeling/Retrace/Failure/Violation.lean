import Retrace.Number.IntType

/-!
# Violations of the run-time rules

The ways in which a run can break a rule. Each has a rule, a wording and details; together with
the name of the procedure, where it is known, they make an error record.
-/

namespace Retrace

/-- The way in which a run broke a rule. -/
inductive Violation where
  | overflow (value : Int) (type : IntType)
  | unbound (name : String)
  | needsIndex (name : String)
  | notArray (name : String)
  | outOfRange (name : String) (index : Int) (length : Nat)
  | foreignSlot
  | released (index : Int)
  | sharedParameters (first second : String)
  | sharedStorage (first second : String)
  | readsTarget (name : String)
  | locatesOperand (operand located : String)
  | divisionByZero (op : String)
  | badShift (op : String) (count : Int) (bits : Nat)
  | unconfirmed (assertion branch : String)
  | unselected (guard branch : String)
  | delocalMismatch (name : String) (actual expected : Int)
  | loopNotEntered (condition : String)
  | loopReentered (condition : String) (iteration : Nat)
  | tooDeep (depth limit : Int)
  | notReady (procedure state : String)
  | poisoned
deriving DecidableEq, Repr

namespace Violation

/-- The rule that is broken. -/
def rule : Violation → RunRule
  | .overflow .. => .arithmeticOverflow
  | .unbound .. => .unboundVariable
  | .needsIndex .. | .notArray .. | .foreignSlot | .released .. => .invalidReference
  | .outOfRange .. => .indexOutOfRange
  | .sharedParameters .. | .sharedStorage .. | .readsTarget .. | .locatesOperand .. =>
    .aliasViolation
  | .divisionByZero .. => .divisionByZero
  | .badShift .. => .invalidShift
  | .unconfirmed .. | .unselected .. => .assertionMismatch
  | .delocalMismatch .. => .delocalMismatch
  | .loopNotEntered .. | .loopReentered .. => .loopAssertionFailure
  | .tooDeep .. => .callDepthExceeded
  | .notReady .. | .poisoned => .invocationState

/-- What went wrong, in words. -/
def message : Violation → String
  | .overflow value type =>
    "Value " ++ toString value ++ " is outside the " ++ type.name ++ " domain [" ++
      toString type.minValue ++ ", " ++ toString type.maxValue ++ "]"
  | .unbound name => "Undefined name '" ++ name ++ "'"
  | .needsIndex name => "'" ++ name ++ "' is an array and needs an index"
  | .notArray name => "'" ++ name ++ "' is not an array"
  | .outOfRange name index length =>
    "Index " ++ toString index ++ " out of range for '" ++ name ++ "' of length " ++ toString length
  | .foreignSlot => "Slot belongs to a different store"
  | .released index => "Slot " ++ toString index ++ " has been released"
  | .sharedParameters first second =>
    "Parameters '" ++ first ++ "' and '" ++ second ++ "' denote the same storage"
  | .sharedStorage first second =>
    "'" ++ first ++ "' and '" ++ second ++ "' denote the same storage"
  | .readsTarget name => "'" ++ name ++ "' is read while computing its own update"
  | .locatesOperand operand located =>
    "'" ++ operand ++ "' locates '" ++ located ++ "' and is modified by the same statement"
  | .divisionByZero op => "Division by zero in '" ++ op ++ "'"
  | .badShift op count bits =>
    "Shift count " ++ toString count ++ " is outside [0, " ++ toString bits ++ ") in '" ++ op ++ "'"
  | .unconfirmed assertion branch =>
    "Assertion '" ++ assertion ++ "' does not confirm the " ++ branch ++ " branch"
  | .unselected guard branch =>
    "Guard '" ++ guard ++ "' does not select the " ++ branch ++ " branch replayed backward"
  | .delocalMismatch name actual expected =>
    "'" ++ name ++ "' is " ++ toString actual ++ " when released, expected " ++ toString expected
  | .loopNotEntered condition => "'" ++ condition ++ "' must hold when the loop is entered"
  | .loopReentered condition iteration =>
    "'" ++ condition ++ "' holds again after iteration " ++ toString iteration
  | .tooDeep depth limit =>
    "Call depth " ++ toString depth ++ " exceeds the limit of " ++ toString limit
  | .notReady procedure state =>
    "Invocation of '" ++ procedure ++ "' is " ++ state ++ "; only a ready invocation can run"
  | .poisoned =>
    "Arguments live in a store left inconsistent by a failed invocation; " ++
      "restore a snapshot or clear the poison first"

/-- The data that go with the message. -/
def details : Violation → List (String × Datum)
  | .overflow value type => [("value", .int value), ("domain", .text type.name)]
  | .unbound name | .needsIndex name | .notArray name => [("name", .text name)]
  | .outOfRange name index _ => [("name", .text name), ("index", .int index)]
  | .sharedParameters first second | .sharedStorage first second =>
    [("variables", .list [.text first, .text second])]
  | .readsTarget name => [("variable", .text name)]
  | .locatesOperand operand located => [("variables", .list [.text operand, .text located])]
  | .badShift _ count _ => [("count", .int count)]
  | .unconfirmed _ branch | .unselected _ branch => [("branch", .text branch)]
  | .delocalMismatch name actual expected =>
    [("variable", .text name), ("actual", .int actual), ("expected", .int expected)]
  | .loopReentered _ iteration => [("iteration", .int iteration)]
  | .tooDeep depth _ => [("depth", .int depth)]
  | .notReady _ state => [("state", .text state)]
  | .foreignSlot | .released _ | .divisionByZero _ | .loopNotEntered _ | .poisoned => []

/-- The record of a violation. -/
def record (v : Violation) (procedure : Option String) : Record :=
  { phase := .run, rule := .run v.rule, message := v.message, procedure, details := v.details }

/-- The failure that a violation causes, in the named procedure. -/
def fault (v : Violation) (procedure : Option String) : Fault :=
  .failure ⟨.run (some v.rule), [v.record procedure]⟩

end Violation

/-- `value` itself if it can be stored in a slot of type `t`. -/
def IntType.check (t : IntType) (value : Int) : Except Fault Int :=
  if t.contains value then .ok value else .error ((Violation.overflow value t).fault none)

end Retrace
