/-!
# Places in source text
-/

namespace Retrace

/-- A place in a source text: lines and columns count from one, columns count characters. -/
structure Location where
  line : Nat
  column : Nat
  file : String := "<stdin>"
deriving DecidableEq, Repr, Inhabited

/-- `file:line:column`. -/
def Location.shown (l : Location) : String :=
  l.file ++ ":" ++ toString l.line ++ ":" ++ toString l.column

end Retrace
