import Retrace.Yaml.Node
import Retrace.Yaml.Scalar

/-!
# Documents

The values of a document. A list or a record holds other values by the numbers of their nodes, so
that a value can be part of several others, and of itself. The values are made level by level: the
parts of a list or record are made when all that is less deep has been made. `Document.ofText` reads
the only document of a text, and the rest of the module says how its values are shown and used.

The value of a merge key is a record, or a list of records, whose entries come before the ones of
the record itself, so that the later of two entries with the same key counts.
-/

namespace Retrace.Yaml

/-- A value, with its parts given by the numbers of their nodes. -/
inductive Value where
  | scalar (s : Scalar)
  | list (items : List Nat)
  | pairs (items : List (Nat × Nat))
  | set (members : List Scalar)
  | record (entries : List (Scalar × Nat))
deriving Inhabited

/-- Sets an entry of a record: in place, with the key that is there already, or else at the end. -/
def setEntry (key : Scalar) (value : Nat) : List (Scalar × Nat) → List (Scalar × Nat)
  | [] => [(key, value)]
  | (k, v) :: rest => if k.same key then (k, value) :: rest else (k, v) :: setEntry key value rest

/-! ## Making values -/

/-- Values in the making: the nodes, which merging changes, the values so far, and the lists and
records whose parts are still to be made, the last one first. -/
structure Workshop where
  nodes : Array Node
  values : Array (Option Value)
  pending : List Nat := []

/-- The steps that make values. -/
abbrev Making := EStateM Fault Workshop

namespace Workshop

/-- The end of a text that denotes no value. -/
def malformed {α : Type} : Making α := throw .malformedYaml

/-- The node with a number. -/
def node (id : Nat) : Making Node := do
  match (← get).nodes[id]? with
  | some n => return n
  | none => malformed

/-- Changes a node. -/
def change (id : Nat) (f : Node → Node) : Making Unit :=
  modify fun w => { w with nodes := w.nodes.modify id f }

/-- The entries of a node, which has to be a record. -/
def entries (id : Nat) : Making (List (Nat × Nat)) := do
  match (← node id).content with
  | .record entries => return entries
  | _ => malformed

/-- Sets the entries of a node. -/
def setEntries (id : Nat) (entries : List (Nat × Nat)) : Making Unit :=
  change id fun n => { n with content := .record entries }

/-- The text of a node; for a record that is the text under its stand-in key. The depth of the
nodes bounds the `fuel`. -/
def textOf : Nat → Nat → Making String
  | 0, _ => malformed
  | fuel + 1, id => do
    match (← node id).content with
    | .text content => return content
    | .list _ => malformed
    | .record entries =>
      let nodes := (← get).nodes
      let entry := entries.find? fun e => (nodes[e.1]?.map Node.tag) = some .standIn
      match entry with
      | some (_, value) => textOf fuel value
      | none => malformed

/-- Sets the value of a node. -/
def finish (id : Nat) (value : Value) : Making Unit :=
  modify fun w => { w with values := w.values.setIfInBounds id (some value) }

/-- Sets the value of a node whose parts are still to be made. -/
def postpone (id : Nat) (value : Value) : Making Unit := do
  finish id value
  modify fun w => { w with pending := id :: w.pending }

/-- Makes the value of a node, unless it is there already. Only a text can be read as a stamp. -/
def make (id : Nat) : Making Unit := do
  let w ← get
  if (w.values[id]?).join.isSome then return
  let n ← node id
  match n.tag with
  | .list => postpone id (.list [])
  | .pairs => postpone id (.pairs [])
  | .set => postpone id (.set [])
  | .record => postpone id (.record [])
  | tag =>
    let content ← match tag with
      | .merge | .standIn | .unknown => malformed
      | _ => textOf (w.nodes.size + 1) id
    match tag, n.content with
    | .stamp, .record _ => throw (.unusable .kind)
    | _, _ =>
      match Scalar.ofText tag content with
      | .ok s => finish id (.scalar s)
      | .error f => throw f

/-- Makes the value of a node that is a key; only a scalar can be one. -/
def makeKey (id : Nat) : Making Scalar := do
  make id
  match ((← get).values[id]?).join with
  | some (.scalar s) => return s
  | _ => malformed

/-- Puts the entries of merged records in front of the entries of a record, from the entry with the
number `index` on; `merged` holds those found so far. Every step passes an entry of the record or
of one that is merged, so the square of the number of nodes is enough `fuel`. -/
def merge : Nat → Nat → Nat → List (Nat × Nat) → Making Unit
  | 0, _, _, _ => malformed
  | fuel + 1, id, index, merged => do
    let own ← entries id
    match own[index]? with
    | none => if !merged.isEmpty then setEntries id (merged ++ own)
    | some (key, value) =>
      match (← node key).tag with
      | .merge =>
        setEntries id (own.eraseIdx index)
        match (← node value).content with
        | .record _ =>
          merge fuel value 0 []
          merge fuel id index (merged ++ (← entries value))
        | .list items =>
          let parts ← items.mapM fun item => do
            let _ ← entries item
            merge fuel item 0 []
            entries item
          merge fuel id index (merged ++ parts.reverse.flatten)
        | .text _ => malformed
      | .standIn =>
        change key fun n => { n with tag := .text }
        merge fuel id (index + 1) merged
      | _ => merge fuel id (index + 1) merged

/-- Makes the entries of a record. -/
def makeEntries (id : Nat) : Making (List (Scalar × Nat)) := do
  let _ ← entries id
  let size := (← get).nodes.size + 1
  merge (size * size) id 0 []
  (← entries id).foldlM (fun made (key, value) => do
    let k ← makeKey key
    make value
    return setEntry k value made) []

/-- Makes the items of a list of pairs, each of which is a record with one entry. -/
def makePairs (items : List Nat) : Making (List (Nat × Nat)) :=
  items.mapM fun item => do
    match ← entries item with
    | [(key, value)] =>
      make key
      make value
      return (key, value)
    | _ => malformed

/-- Makes the parts of a list or record. -/
def fill (id : Nat) : Making Unit := do
  let n ← node id
  match n.tag, n.content with
  | .list, .list items =>
    items.forM make
    finish id (.list items)
  | .pairs, .list items => finish id (.pairs (← makePairs items))
  | .set, .record _ => finish id (.set ((← makeEntries id).map Prod.fst))
  | .record, .record _ => finish id (.record (← makeEntries id))
  | _, _ => malformed

/-- Makes all parts, level by level. Every level makes a value, so the number of nodes is enough
`fuel`. -/
def fillAll : Nat → Making Unit
  | 0 => return
  | fuel + 1 => do
    let ids := (← get).pending.reverse
    if !ids.isEmpty then
      modify fun w => { w with pending := [] }
      ids.forM fill
      fillAll fuel

end Workshop

/-- The values of a document, one of which is the whole of it. -/
structure Document where
  values : Array (Option Value)
  root : Nat

namespace Document

/-- The values of a graph. -/
def ofGraph (g : Graph) : Except Fault Document :=
  let start : Workshop := { nodes := g.nodes, values := g.nodes.map fun _ => none }
  let making : Making Unit := do
    Workshop.make g.root
    Workshop.fillAll (g.nodes.size + 1)
  match making start with
  | .ok _ w => .ok ⟨w.values, g.root⟩
  | .error f _ => .error f

/-- The only document of a text; an empty text has none. -/
def ofText (text : String) : Except Fault (Option Document) := do
  match ← Graph.ofTokens (← Token.ofText text) with
  | some g => return some (← ofGraph g)
  | none => return none

/-! ## Using values -/

/-- The value of a node. -/
def value (d : Document) (id : Nat) : Value := ((d.values[id]?).join).getD (.scalar .null)

/-- The parts of a value as messages show them inside another value. `within` holds the values
around it; a value inside itself is not shown again, so the number of values is enough `fuel`. -/
def quotedIn (d : Document) : Nat → List Nat → Nat → String
  | 0, _, _ => ""
  | fuel + 1, within, id =>
    let part := d.quotedIn fuel (id :: within)
    let braces (parts : List String) := "\x7b" ++ ", ".intercalate parts ++ "\x7d"
    match d.value id, within.contains id with
    | .scalar s, _ => s.quoted
    | .list _, true | .pairs _, true => "[...]"
    | .list items, false => Text.bracketed (items.map part)
    | .pairs items, false =>
      Text.bracketed (items.map fun (key, value) => "(" ++ part key ++ ", " ++ part value ++ ")")
    | .set members, _ => if members.isEmpty then "set()" else braces (members.map Scalar.quoted)
    | .record _, true => braces ["..."]
    | .record entries, false =>
      braces (entries.map fun (key, value) => key.quoted ++ ": " ++ part value)

/-- A value as messages show it. -/
def shown (d : Document) (id : Nat) : String :=
  match d.value id with
  | .scalar s => s.shown
  | _ => d.quotedIn (d.values.size + 2) [] id

/-- The members of a list as messages show them. -/
def members? (d : Document) (id : Nat) : Option (List String) :=
  match d.value id with
  | .list items => some (items.map d.shown)
  | .pairs items =>
    let part := d.quotedIn (d.values.size + 2) []
    some (items.map fun (key, value) => "(" ++ part key ++ ", " ++ part value ++ ")")
  | _ => none

/-- Whether a value counts as set. -/
def isSet (d : Document) (id : Nat) : Bool :=
  match d.value id with
  | .scalar s => s.isSet
  | .list items => !items.isEmpty
  | .pairs items => !items.isEmpty
  | .set members => !members.isEmpty
  | .record entries => !entries.isEmpty

/-- The integer that a value stands for. -/
def toInteger (d : Document) (id : Nat) : Except Fault Int :=
  match d.value id with
  | .scalar s => s.toInteger
  | _ => .error (.unusable .kind)

/-- The entries of a document whose keys are texts. The document has to be a record, or a value that
does not count as set. -/
def fields? (d : Document) : Option (List (String × Nat)) :=
  match d.value d.root with
  | .record entries => some (entries.filterMap fun
    | (.text key, value) => some (key, value)
    | _ => none)
  | _ => if d.isSet d.root then none else some []

end Document

end Retrace.Yaml
