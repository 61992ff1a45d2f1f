import Retrace.Fault
import Retrace.Source.Printer

/-!
# Breaches of the legality rules

The ways in which a procedure can fail to be reversible by its form alone. Each has a rule, a
wording and details; with the procedure, the statement and the place they make an error record.
-/

namespace Retrace

/-- Why a call is not reversible. -/
inductive CallDefect where
  | hostProcedure
  | unregistered
  | argumentForm
  | procedureAsValue
  | impure
deriving DecidableEq, Repr, Inhabited

/-- Why a call is not reversible, in words. -/
def CallDefect.message : CallDefect → String
  | .hostProcedure => "host functions cannot mutate their arguments"
  | .unregistered => "it is not a registered reversible procedure"
  | .argumentForm => "arguments must be variable references"
  | .procedureAsValue => "reversible procedures cannot be used as values"
  | .impure => "it is not a known pure function"

/-- The way in which a procedure breaks a rule of legality. -/
inductive Breach where
  | illegalOperator (symbol : String)
  | fixedTarget
  | mutation (symbol : String)
  | selfAliased (name : String)
  | irreversibleCall (callee : String) (defect : CallDefect)
  | arity (callee : String) (expected given : Nat)
  | repeatedParameter (name : String)
  | shadowing (name : String)
  | kept (name : String)
  | foreignDelocal (name : String)
  | duplicateProcedure (name : String)
  | unconfirmable (assertion branch : String)
deriving DecidableEq, Repr, Inhabited

namespace Breach

/-- The rule that is broken. -/
def rule : Breach → LegalityRule
  | .illegalOperator _ | .fixedTarget | .mutation _ => .illegalOperator
  | .selfAliased _ => .selfAliasedAssignment
  | .irreversibleCall .. => .nonReversibleCall
  | .arity .. => .arityMismatch
  | .repeatedParameter _ | .shadowing _ => .duplicateBinding
  | .kept _ | .foreignDelocal _ => .unbalancedLocal
  | .duplicateProcedure _ => .duplicateProcedure
  | .unconfirmable .. => .unsatisfiableAssertion

/-- What is wrong, in words. -/
def message : Breach → String
  | .illegalOperator symbol => "Operator '" ++ symbol ++ "' is not reversible"
  | .fixedTarget => "Only variables and array elements can be updated"
  | .mutation symbol => "Mutation '" ++ symbol ++ "' inside an expression"
  | .selfAliased name => "'" ++ name ++ "' is read by the expression that updates it"
  | .irreversibleCall callee defect =>
    "Call to '" ++ callee ++ "' is not reversible: " ++ defect.message
  | .arity callee expected given =>
    "'" ++ callee ++ "' takes " ++ toString expected ++ " argument(s), " ++ toString given ++
      " given"
  | .repeatedParameter name => "Parameter '" ++ name ++ "' is declared twice"
  | .shadowing name => "Local '" ++ name ++ "' shadows an existing binding"
  | .kept name => "Local '" ++ name ++ "' is never delocalised in its block"
  | .foreignDelocal name => "Delocal of '" ++ name ++ "', which is not a local of this block"
  | .duplicateProcedure name => "Procedure '" ++ name ++ "' is already registered"
  | .unconfirmable assertion branch =>
    "Assertion '" ++ assertion ++ "' can never confirm the " ++ branch ++ " branch"

/-- The data that go with the message. -/
def details : Breach → List (String × Datum)
  | .illegalOperator symbol | .mutation symbol => [("operator", .text symbol)]
  | .selfAliased name | .repeatedParameter name | .shadowing name | .kept name
  | .foreignDelocal name => [("variable", .text name)]
  | .irreversibleCall callee _ | .arity callee _ _ => [("callee", .text callee)]
  | .unconfirmable _ branch => [("branch", .text branch)]
  | .fixedTarget | .duplicateProcedure _ => []

end Breach

/-- A breach, with the statement that holds it and its place in the text. -/
structure Finding where
  breach : Breach
  statement : Option Stmt := none
  place : Option Location := none
deriving Inhabited

/-- The record of a finding in the named procedure. -/
def Finding.record (procedure : String) (f : Finding) : Record :=
  { phase := .registration
    rule := .legality f.breach.rule
    message := f.breach.message
    location := f.place
    procedure := some procedure
    statement := f.statement.map Stmt.summary
    details := f.breach.details }

/-- The failure to register that some records describe, if there are any. -/
def Failure.registration? : List Record → Option Failure
  | [] => none
  | first :: rest => some (Failure.ofRecords (.registration none) first rest)

end Retrace
