import Retrace.Eval.Value
import Retrace.Number.IntType

/-!
# Settings

The choices that a library of procedures is made with.
-/

namespace Retrace

/-- The choices that a library is made with. -/
structure Settings where
  /-- the name of the integer type of slots -/
  intType : String := "i64"
  /-- whether assertions are analysed when a procedure is registered -/
  verifyAssertions : Bool := false
  /-- whether a branch that was run backward has to satisfy its guard in the end -/
  checkGuardOnBackward : Bool := false
  maxCallDepth : Int := 100
  /-- the built-in functions that expressions may call -/
  pureFunctions : List String := HostFunction.sortedNames
deriving DecidableEq, Repr, Inhabited

/-- Refuses settings that make no sense. -/
def Settings.validate (s : Settings) : Except Fault Unit := do
  let _ ← IntType.ofName s.intType
  if s.maxCallDepth < 1 then throw (.badCallDepth s.maxCallDepth)
  let unknown := s.pureFunctions.filter fun name => !HostFunction.builtinNames.contains name
  if !unknown.isEmpty then throw (.unknownPureFunctions unknown HostFunction.sortedNames)

end Retrace
