/-!
# The rules of the language

Every failure names the rule that was broken. Rules come in three groups, by the time at which they
are checked: when text is read, when a procedure is registered, and while one runs.
-/

namespace Retrace

/-- The rules that a procedure has to keep to be registered. -/
inductive LegalityRule where
  | illegalOperator
  | selfAliasedAssignment
  | nonReversibleCall
  | arityMismatch
  | unbalancedLocal
  | duplicateBinding
  | duplicateProcedure
  | unsatisfiableAssertion
deriving DecidableEq, Repr, Inhabited

/-- The rules that a run has to keep. -/
inductive RunRule where
  | aliasViolation
  | assertionMismatch
  | unboundVariable
  | arithmeticOverflow
  | delocalMismatch
  | loopAssertionFailure
  | indexOutOfRange
  | invalidReference
  | divisionByZero
  | invalidShift
  | callDepthExceeded
  | invocationState
deriving DecidableEq, Repr, Inhabited

/-- A rule of the language. -/
inductive Rule where
  | grammar
  | legality (rule : LegalityRule)
  | run (rule : RunRule)
deriving DecidableEq, Repr, Inhabited

namespace LegalityRule

/-- All rules, in the order in which they are listed. -/
def all : List LegalityRule :=
  [.illegalOperator, .selfAliasedAssignment, .nonReversibleCall, .arityMismatch, .unbalancedLocal,
    .duplicateBinding, .duplicateProcedure, .unsatisfiableAssertion]

/-- The name of a rule in an error record. -/
def name : LegalityRule → String
  | .illegalOperator => "illegal_operator"
  | .selfAliasedAssignment => "self_aliased_assignment"
  | .nonReversibleCall => "non_reversible_call"
  | .arityMismatch => "arity_mismatch"
  | .unbalancedLocal => "unbalanced_local"
  | .duplicateBinding => "duplicate_binding"
  | .duplicateProcedure => "duplicate_procedure"
  | .unsatisfiableAssertion => "unsatisfiable_assertion"

/-- The label of the failures that break a rule. -/
def label : LegalityRule → String
  | .illegalOperator => "IllegalOperator"
  | .selfAliasedAssignment => "SelfAliasedAssignment"
  | .nonReversibleCall => "NonReversibleCall"
  | .arityMismatch => "ArityMismatch"
  | .unbalancedLocal => "UnbalancedLocal"
  | .duplicateBinding => "DuplicateBinding"
  | .duplicateProcedure => "DuplicateProcedure"
  | .unsatisfiableAssertion => "UnsatisfiableAssertion"

end LegalityRule

namespace RunRule

/-- All rules, in the order in which they are listed. -/
def all : List RunRule :=
  [.aliasViolation, .assertionMismatch, .unboundVariable, .arithmeticOverflow, .delocalMismatch,
    .loopAssertionFailure, .indexOutOfRange, .invalidReference, .divisionByZero, .invalidShift,
    .callDepthExceeded, .invocationState]

/-- The name of a rule in an error record. -/
def name : RunRule → String
  | .aliasViolation => "alias_violation"
  | .assertionMismatch => "assertion_mismatch"
  | .unboundVariable => "unbound_variable"
  | .arithmeticOverflow => "arithmetic_overflow"
  | .delocalMismatch => "delocal_mismatch"
  | .loopAssertionFailure => "loop_assertion_failure"
  | .indexOutOfRange => "index_out_of_range"
  | .invalidReference => "invalid_reference"
  | .divisionByZero => "division_by_zero"
  | .invalidShift => "invalid_shift"
  | .callDepthExceeded => "call_depth_exceeded"
  | .invocationState => "invocation_state"

/-- The label of the failures that break a rule. -/
def label : RunRule → String
  | .aliasViolation => "AliasViolation"
  | .assertionMismatch => "AssertionMismatch"
  | .unboundVariable => "UnboundVariable"
  | .arithmeticOverflow => "ArithmeticOverflow"
  | .delocalMismatch => "DelocalMismatch"
  | .loopAssertionFailure => "LoopAssertionFailure"
  | .indexOutOfRange => "IndexOutOfRange"
  | .invalidReference => "InvalidReference"
  | .divisionByZero => "DivisionByZero"
  | .invalidShift => "InvalidShift"
  | .callDepthExceeded => "CallDepthExceeded"
  | .invocationState => "InvocationStateError"

end RunRule

namespace Rule

/-- All rules of the language. -/
def all : List Rule :=
  .grammar :: LegalityRule.all.map Rule.legality ++ RunRule.all.map Rule.run

/-- The name of a rule in an error record. -/
def name : Rule → String
  | .grammar => "syntax"
  | .legality r => r.name
  | .run r => r.name

/-- The rule of a given name. -/
def ofName? (text : String) : Option Rule := all.find? fun r => r.name = text

end Rule

end Retrace
