import Retrace.Datum
import Retrace.Yaml.Tag
import Retrace.Yaml.Token

/-!
# Nodes

A document is a graph. Its nodes are texts, lists of nodes and records of nodes, each with a tag,
and they are known by their numbers. A node can be given a name by an anchor; an alias stands for
the node of that name, also inside it. `Graph.ofTokens` reads the graph of the only document in a
sequence of tokens.
-/

namespace Retrace.Yaml

/-- What a node holds. The other nodes in it are given by their numbers. -/
inductive Content where
  | text (content : String)
  | list (items : List Nat)
  | record (entries : List (Nat × Nat))
deriving Inhabited

/-- A part of a document. -/
structure Node where
  tag : Tag
  content : Content
deriving Inhabited

/-- The nodes of a document, one of which is the whole of it. -/
structure Graph where
  nodes : Array Node
  root : Nat

/-- A graph in the making: the tokens that are left, the nodes so far, their names, and what the
handles of tags stand for. -/
structure Draft where
  tokens : List Token
  nodes : Array Node := #[]
  anchors : List (String × Nat) := []
  handles : List (String × String) := []

/-- The steps that read a graph. -/
abbrev Drafting := EStateM Fault Draft

namespace Draft

/-- The end of a text that is no document. -/
def malformed {α : Type} : Drafting α := throw .malformedYaml

/-- The next token. -/
def peek : Drafting (Option Token) := return (← get).tokens.head?

/-- Passes the next token. -/
def pass : Drafting Unit := modify fun d => { d with tokens := d.tokens.tail }

/-- Passes the next token if it is `t`, and says whether it is. -/
def passIf (t : Token) : Drafting Bool := do
  if (← peek) = some t then
    pass
    return true
  else return false

/-- Adds a node, which may have a name. -/
def add (anchor : Option String) (node : Node) : Drafting Nat := do
  let d ← get
  let id := d.nodes.size
  let anchors := match anchor with
    | some name => (name, id) :: d.anchors
    | none => d.anchors
  set { d with nodes := d.nodes.push node, anchors }
  return id

/-- Adds a text that is not written. -/
def addEmpty : Drafting Nat := add none ⟨.null, .text ""⟩

/-- Sets what a node holds. -/
def setContent (id : Nat) (content : Content) : Drafting Unit :=
  modify fun d => { d with nodes := d.nodes.modify id fun node => { node with content } }

/-- The name of an anchor here. -/
def anchor? : Drafting (Option String) := do
  match ← peek with
  | some (.anchor name) =>
    pass
    return some name
  | _ => return none

/-- The name of the tag here, with what its handle stands for. -/
def tagName? : Drafting (Option String) := do
  match ← peek with
  | some (.tag none name) =>
    pass
    return some name
  | some (.tag (some handle) name) =>
    pass
    match Datum.field? handle (← get).handles with
    | some start => return some (start ++ name)
    | none => malformed
  | _ => return none

/-- The anchor and the tag in front of a node, in either order. No two nodes have the same name. -/
def properties : Drafting (Option String × Option String) := do
  let first ← anchor?
  let tag ← tagName?
  let anchor ← if first.isNone && tag.isSome then anchor? else pure first
  let taken := (← get).anchors
  if anchor.any fun name => (Datum.field? name taken).isSome then malformed
  return (anchor, tag)

/-- The tag of a node whose tag is `usual` unless it is written. -/
def tagOr (usual : Tag) : Option String → Tag
  | none => usual
  | some "!" => usual
  | some name => .ofName name

/-- The tag of a text. -/
def tagOfText (content : String) (plain : Bool) (name : Option String) : Tag :=
  tagOr (if plain || name.isSome then .ofWord content else .text) name

mutual

/-- Reads a node. Lists and records without brackets are allowed in a `block`; after a key or a
colon a list does not have to be further in (`level`). Every call passes a token or hands over to
one that does, so a multiple of their number is enough `fuel`. -/
def node (block level : Bool) : Nat → Drafting Nat
  | 0 => malformed
  | fuel + 1 => do
    match ← peek with
    | some (.alias name) =>
      pass
      match Datum.field? name (← get).anchors with
      | some id => return id
      | none => malformed
    | _ =>
      let (anchor, tag) ← properties
      let collection (usual : Tag) (rest : Drafting Content) : Drafting Nat := do
        let id ← add anchor ⟨tagOr usual tag, .list []⟩
        setContent id (← rest)
        return id
      match ← peek with
      | some (.text content plain) =>
        pass
        add anchor ⟨tagOfText content plain tag, .text content⟩
      | some .flowListStart =>
        pass
        collection .list (return .list (← flowItems true fuel))
      | some .flowRecordStart =>
        pass
        collection .record (return .record (← flowEntries true fuel))
      | next =>
        if level && next = some .blockEntry then
          collection .list (return .list (← levelItems fuel))
        else if block && next = some .blockListStart then
          pass
          collection .list (return .list (← blockItems fuel))
        else if block && next = some .blockRecordStart then
          pass
          collection .record (return .record (← blockEntries fuel))
        else if anchor.isSome || tag.isSome then
          add anchor ⟨tagOr .null tag, .text ""⟩
        else malformed

/-- A node, or an empty one before a token of `ends`. -/
def nodeBefore (ends : List Token) (block level : Bool) : Nat → Drafting Nat
  | 0 => malformed
  | fuel + 1 => do
    if (← peek).any (ends.contains ·) then addEmpty else node block level fuel

/-- The items of a list in a column of its own. -/
def blockItems : Nat → Drafting (List Nat)
  | 0 => malformed
  | fuel + 1 => do
    if ← passIf .blockEntry then
      let item ← nodeBefore [.blockEntry, .blockEnd] true false fuel
      return item :: (← blockItems fuel)
    else if ← passIf .blockEnd then return []
    else malformed

/-- The items of a list in the column of the record around it. -/
def levelItems : Nat → Drafting (List Nat)
  | 0 => malformed
  | fuel + 1 => do
    if ← passIf .blockEntry then
      let item ← nodeBefore [.blockEntry, .key, .value, .blockEnd] true false fuel
      return item :: (← levelItems fuel)
    else return []

/-- The value of an entry, which is empty if it is not written. -/
def valueBefore (ends : List Token) (block : Bool) : Nat → Drafting Nat
  | 0 => malformed
  | fuel + 1 => do
    if ← passIf .value then nodeBefore ends block block fuel else addEmpty

/-- The entries of a record in a column of its own. -/
def blockEntries : Nat → Drafting (List (Nat × Nat))
  | 0 => malformed
  | fuel + 1 => do
    let ends : List Token := [.key, .value, .blockEnd]
    if ← passIf .key then
      let key ← nodeBefore ends true true fuel
      let value ← valueBefore ends true fuel
      return (key, value) :: (← blockEntries fuel)
    else if ← passIf .blockEnd then return []
    else malformed

/-- The items of a list in brackets; `first` says that no comma precedes the next one. A pair among
them is a record of its own. -/
def flowItems (first : Bool) : Nat → Drafting (List Nat)
  | 0 => malformed
  | fuel + 1 => do
    if ← passIf .flowListEnd then return []
    if !first then
      if !(← passIf .flowEntry) then malformed
    if ← passIf .key then
      let ends : List Token := [.flowEntry, .flowListEnd]
      let id ← add none ⟨.record, .record []⟩
      let key ← nodeBefore (.value :: ends) false false fuel
      let value ← valueBefore ends false fuel
      setContent id (.record [(key, value)])
      return id :: (← flowItems false fuel)
    else if ← passIf .flowListEnd then return []
    else
      let item ← node false false fuel
      return item :: (← flowItems false fuel)

/-- The entries of a record in braces; `first` says that no comma precedes the next one. A node
alone is a key without a value. -/
def flowEntries (first : Bool) : Nat → Drafting (List (Nat × Nat))
  | 0 => malformed
  | fuel + 1 => do
    if ← passIf .flowRecordEnd then return []
    if !first then
      if !(← passIf .flowEntry) then malformed
    if ← passIf .key then
      let ends : List Token := [.flowEntry, .flowRecordEnd]
      let key ← nodeBefore (.value :: ends) false false fuel
      let value ← valueBefore ends false fuel
      return (key, value) :: (← flowEntries false fuel)
    else if ← passIf .flowRecordEnd then return []
    else
      let key ← node false false fuel
      let value ← addEmpty
      return (key, value) :: (← flowEntries false fuel)

end

/-! ## Documents -/

/-- What handles stand for if nothing else is said. -/
def usualHandles : List (String × String) := [("!", "!"), ("!!", Tag.common)]

/-- Reads the directives in front of a document: at most one version, which begins with 1, and each
handle once. Every step passes a token, so their number is enough `fuel`. -/
def directives : Nat → Bool → List (String × String) → Drafting Unit
  | 0, _, _ => malformed
  | fuel + 1, versioned, handles => do
    match ← peek with
    | some (.directive d) =>
      pass
      match d with
      | .version major =>
        if versioned || major ≠ 1 then malformed else directives fuel true handles
      | .handle name start =>
        if (Datum.field? name handles).isSome then malformed
        else directives fuel versioned ((name, start) :: handles)
      | .other => directives fuel versioned handles
    | _ => modify fun d => { d with handles := handles ++ usualHandles }

/-- Whether a document is not written out here, but starts with directives or a mark, or the text
ends. -/
def atDocumentMark : Drafting Bool := do
  match ← peek with
  | none | some .documentStart | some (.directive _) => return true
  | _ => return false

/-- Passes the marks that end documents, and says whether the text ends after them. -/
def atTextEnd : Drafting Bool := do
  modify fun d => { d with tokens := d.tokens.dropWhile (· = .documentEnd) }
  return (← peek).isNone

/-- Reads the only document of a text, if there is one. -/
def document : Drafting (Option Nat) := do
  let fuel := 4 * (← get).tokens.length + 8
  let root ←
    if !(← atDocumentMark) then
      modify fun d => { d with handles := usualHandles }
      some <$> node true false fuel
    else if ← atTextEnd then pure none
    else do
      directives fuel false []
      if !(← passIf .documentStart) then malformed
      let empty := (← atDocumentMark) || (← peek) = some .documentEnd
      some <$> if empty then addEmpty else node true false fuel
  if ← atTextEnd then return root else malformed

end Draft

/-- The graph of the only document in a sequence of tokens; an empty text has none. -/
def Graph.ofTokens (tokens : List Token) : Except Fault (Option Graph) :=
  match Draft.document { tokens } with
  | .ok root d => .ok (root.map fun root => ⟨d.nodes, root⟩)
  | .error f _ => .error f

end Retrace.Yaml
