import Retrace.Datum.Json
import Retrace.Fault
import Retrace.Text.Integer

/-!
# Values on the command line

A parameter is given as `name=value`. A value is an integer, or several of them with commas, which
may stand in square brackets: `5`, `1,2,3`, `5,`, `[1, 2]`, `[]`.
-/

namespace Retrace.Command

/-- An integer. -/
def integer (text : String) : Except Fault Int :=
  match Text.readInteger? text with
  | some n => .ok n
  | none => .error (.badInteger text)

/-- The integers between commas; blank parts are skipped. -/
def integers (text : String) : Except Fault Datum := do
  let parts := (text.splitOn ",").filter fun part => !(Text.strip part).isEmpty
  return .list ((← parts.mapM integer).map .int)

/-- The value that a text denotes. -/
def value (text : String) : Except Fault Datum :=
  let text := Text.strip text
  match text.toList with
  | '[' :: rest =>
    if rest.getLast? = some ']' then integers (Text.strip (String.ofList rest.dropLast))
    else plain text
  | _ => plain text
where
  plain (text : String) : Except Fault Datum :=
    if text.contains ',' then integers text else return .int (← integer text)

/-- The values of parameters. A name that is given again keeps its place and takes the new value. -/
def assignments (items : List String) : Except Fault (List (String × Datum)) :=
  items.foldlM (fun values item => do
    let cs := item.toList
    let name := Text.strip (String.ofList (cs.takeWhile fun c => c ≠ '='))
    if !cs.contains '=' || name.isEmpty then throw (.badAssignment item)
    let text := String.ofList ((cs.dropWhile fun c => c ≠ '=').drop 1)
    return Datum.setField name (← value text) values) []

end Retrace.Command
