import Retrace.Yaml.Literal

/-!
# Tokens

A document is read as a sequence of tokens. Some of them are written, such as brackets and texts.
Others follow from the layout: a deeper column starts a list or a record, and a column further left
ends it. A text in front of a colon is a key, which is known only when the colon is reached: the
place of a possible key is remembered, and the token for it is put in afterwards. Such a key stands
on one line and is not longer than 1024 characters.
-/

namespace Retrace.Yaml

/-- What stands in front of a document. -/
inductive Directive where
  | version (major : Nat)
  | handle (name start : String)
  | other
deriving DecidableEq, Repr, Inhabited

/-- The parts of a document. -/
inductive Token where
  | directive (d : Directive)
  | documentStart
  | documentEnd
  | blockListStart
  | blockRecordStart
  | blockEnd
  | flowListStart
  | flowListEnd
  | flowRecordStart
  | flowRecordEnd
  | flowEntry
  | blockEntry
  | key
  | value
  | alias (name : String)
  | anchor (name : String)
  /-- a tag with the handle that stands for the start of its name -/
  | tag (handle : Option String) (name : String)
  /-- a text, written plainly or not -/
  | text (content : String) (plain : Bool)
deriving DecidableEq, Repr, Inhabited

/-! ## Names, tags and directives -/

/-- A name here, and the place after it. -/
def readName (c : Cursor) : Except Fault (String × Cursor) :=
  let name := c.span isNameChar
  if name.isEmpty then .error .malformedYaml else .ok (String.ofList name, c.skip name.length)

/-- The name after the mark of an anchor or an alias. -/
def readAnchor (c : Cursor) : Except Fault (String × Cursor) := do
  let (name, c) ← readName c.next
  let closed := endsWord c.peek ||
    c.peek.any fun x => ['?', ':', ',', ']', '\x7d', '%', '@', '\x60'].contains x
  if closed then return (name, c) else throw .malformedYaml

/-- The handle of a tag: a mark alone before a blank, or two marks with a name between them. -/
def readHandle (c : Cursor) : Except Fault (String × Cursor) :=
  if c.peek ≠ some '!' then .error .malformedYaml
  else if c.peekAt 1 = some ' ' then .ok ("!", c.next)
  else
    let name := c.next.span isNameChar
    if c.peekAt (name.length + 1) = some '!' then
      .ok (String.ofList ('!' :: name ++ ['!']), c.skip (name.length + 2))
    else .error .malformedYaml

/-- The characters of the name of a tag. -/
def isTagChar (c : Char) : Bool :=
  c.isAlphanum || "-;/?:@&=+$,_.!~*\x27()[]%".toList.contains c

/-- The bytes that are written as escapes here, and the place after them. Every step passes a
character, so their number is enough `fuel`. -/
def readBytes : Nat → List UInt8 → Cursor → Except Fault (List UInt8 × Cursor)
  | 0, acc, c => .ok (acc.reverse, c)
  | fuel + 1, acc, c =>
    match c.rest with
    | '%' :: a :: b :: _ =>
      if isHexDigit a && isHexDigit b then
        let byte := ((Text.readDigitsIn? 16 [a, b]).getD 0).toUInt8
        readBytes fuel (byte :: acc) (c.skip 3)
      else .error .malformedYaml
    | '%' :: _ => .error .malformedYaml
    | _ => .ok (acc.reverse, c)

/-- The name of a tag, which may hold escapes. Every step passes a character. -/
def readTagChars : Nat → List Char → Cursor → Except Fault (List Char × Cursor)
  | 0, acc, c => .ok (acc, c)
  | fuel + 1, acc, c =>
    match c.peek with
    | none => .ok (acc, c)
    | some x =>
      if x = '%' then do
        let (bytes, c) ← readBytes c.rest.length [] c
        match String.fromUTF8? (ByteArray.mk bytes.toArray) with
        | some s => readTagChars fuel (s.toList.reverse ++ acc) c
        | none => throw .malformedYaml
      else if isTagChar x then readTagChars fuel (x :: acc) c.next
      else .ok (acc, c)

/-- The name of a tag, which is not empty. -/
def readTagName (c : Cursor) : Except Fault (String × Cursor) := do
  let (acc, after) ← readTagChars c.rest.length [] c
  if after.index = c.index then throw .malformedYaml
  return (String.ofList acc.reverse, after)

/-- The tag here: a name in angle brackets, a mark alone, or a handle and a name. -/
def readTag (c : Cursor) : Except Fault (Token × Cursor) := do
  let word := c.next.span fun x => !endsField (some x)
  let (tag, c) ←
    if c.peekAt 1 = some '<' then do
      let (name, c) ← readTagName (c.skip 2)
      if c.peek = some '>' then pure (Token.tag none name, c.next) else throw .malformedYaml
    else if endsWord (c.peekAt 1) then pure (Token.tag none "!", c.next)
    else do
      let (handle, c) ← if word.contains '!' then readHandle c else pure ("!", c.next)
      let (name, c) ← readTagName c
      pure (Token.tag (some handle) name, c)
  if endsField c.peek then return (tag, c) else throw .malformedYaml

/-- A number of a version. -/
def readVersionPart (c : Cursor) : Except Fault (Nat × Cursor) :=
  let digits := c.span Char.isDigit
  match Text.readDigits? digits with
  | some n => .ok (n, c.skip digits.length)
  | none => .error .malformedYaml

/-- The directive here, with the rest of its line. -/
def readDirective (c : Cursor) : Except Fault (Directive × Cursor) := do
  let (name, c) ← readName c.next
  if !endsField c.peek then throw .malformedYaml
  let (directive, c) ← match name with
    | "YAML" => do
      let (major, c) ← readVersionPart c.skipBlanks
      if c.peek ≠ some '.' then throw .malformedYaml
      let (_, c) ← readVersionPart c.next
      if !endsField c.peek then throw .malformedYaml
      pure (Directive.version major, c)
    | "TAG" => do
      let (handle, c) ← readHandle c.skipBlanks
      if c.peek ≠ some ' ' then throw .malformedYaml
      let (start, c) ← readTagName c.skipBlanks
      if !endsField c.peek then throw .malformedYaml
      pure (Directive.handle handle start, c)
    | _ => pure (Directive.other, c.skipWhile fun x => !isBreak x)
  return (directive, ← c.skipEmptyLine)

/-! ## Layout -/

/-- A place where a key may have started. -/
structure PossibleKey where
  /-- the number of tokens before it -/
  position : Nat
  /-- whether nothing but a key can stand there -/
  required : Bool
  index : Nat
  line : Nat
  column : Nat
deriving Inhabited

/-- How far a text is read. -/
structure Layout where
  cursor : Cursor
  tokens : Array Token := #[]
  /-- how many brackets are open -/
  flow : Nat := 0
  /-- the column of the innermost list or record that is written without brackets -/
  indent : Int := -1
  /-- the columns of those around it -/
  outer : List Int := []
  /-- whether a key may start here -/
  keyAllowed : Bool := true
  /-- the possible keys, each with the number of brackets around it -/
  keys : List (Nat × PossibleKey) := []

namespace Layout

/-- Adds a token. -/
def push (s : Layout) (t : Token) : Layout := { s with tokens := s.tokens.push t }

/-- Adds a token that takes `n` characters. -/
def pushMark (s : Layout) (t : Token) (n : Nat) : Layout :=
  { s with cursor := s.cursor.skip n, tokens := s.tokens.push t }

/-- Puts tokens in at an earlier position. -/
def insert (s : Layout) (position : Nat) (ts : List Token) : Layout :=
  let tokens := s.tokens.toList
  { s with tokens := (tokens.take position ++ ts ++ tokens.drop position).toArray }

/-- The possible key within the innermost bracket. -/
def key? (s : Layout) : Option PossibleKey :=
  (s.keys.find? fun entry => entry.1 = s.flow).map Prod.snd

/-- Forgets the possible key within the innermost bracket. -/
def forget (s : Layout) : Layout :=
  { s with keys := s.keys.filter fun entry => entry.1 ≠ s.flow }

/-- Gives up the possible key within the innermost bracket. -/
def giveUpKey (s : Layout) : Except Fault Layout :=
  if s.key?.any (·.required) then .error .malformedYaml else .ok s.forget

/-- Gives up the keys that started on another line or too far back. -/
def giveUpOldKeys (s : Layout) : Except Fault Layout :=
  let isOld (k : PossibleKey) : Bool :=
    k.line ≠ s.cursor.line || 1024 < s.cursor.index - k.index
  if s.keys.any fun entry => isOld entry.2 && entry.2.required then .error .malformedYaml
  else .ok { s with keys := s.keys.filter fun entry => !isOld entry.2 }

/-- Remembers that a key may start here. -/
def noteKey (s : Layout) : Except Fault Layout :=
  if s.keyAllowed then do
    let s ← s.giveUpKey
    let c := s.cursor
    let required := s.flow = 0 && s.indent = c.column
    let key : PossibleKey := ⟨s.tokens.size, required, c.index, c.line, c.column⟩
    return { s with keys := (s.flow, key) :: s.keys }
  else .ok s

/-- Ends the lists and records that are further right than a column. The columns around the
innermost one are given apart. -/
def closeFrom (column : Int) : List Int → Layout → Layout
  | [], s => s
  | around :: rest, s =>
    if column < s.indent then
      closeFrom column rest { s.push .blockEnd with indent := around, outer := rest }
    else s

/-- Ends the lists and records that are further right than a column. Brackets are closed by nothing
but their counterparts. -/
def close (s : Layout) (column : Int) : Layout :=
  if s.flow = 0 then closeFrom column s.outer s else s

/-- Whether a column starts a list or a record of its own, and the layout with it as the innermost
one. -/
def deepen (s : Layout) (column : Nat) : Bool × Layout :=
  if s.indent < column then
    (true, { s with indent := column, outer := s.indent :: s.outer })
  else (false, s)

/-- The layout after blanks, comments and line ends. Every step passes a character, so their number
is enough `fuel`. -/
def skipGap : Nat → Layout → Layout
  | 0, s => s
  | fuel + 1, s =>
    let c := s.cursor.skipBlanks.skipComment
    if c.peek.any isBreak then
      skipGap fuel { s with cursor := c.takeBreak.2, keyAllowed := s.keyAllowed || s.flow = 0 }
    else { s with cursor := c }

/-- Ends what is open before a mark at the start of a line. -/
def closeAll (s : Layout) : Except Fault Layout := do
  let s ← (s.close (-1)).giveUpKey
  return { s with keyAllowed := false }

/-- Opens a bracket, which may be part of a key. -/
def openBracket (s : Layout) (t : Token) : Except Fault Layout := do
  let s ← s.noteKey
  return { s.pushMark t 1 with flow := s.flow + 1, keyAllowed := true }

/-- Closes a bracket, of which one has to be open. -/
def closeBracket (s : Layout) (t : Token) : Except Fault Layout := do
  if s.flow = 0 then throw .malformedYaml
  let s ← s.giveUpKey
  return { s.pushMark t 1 with flow := s.flow - 1, keyAllowed := false }

/-- Starts an entry of a list or an explicit key, which may start a list or record of its own. -/
def startItem (s : Layout) (opening t : Token) (keyAllowed : Bool) : Except Fault Layout := do
  if s.flow = 0 && !s.keyAllowed then throw .malformedYaml
  let s :=
    if s.flow = 0 then
      match s.deepen s.cursor.column with
      | (true, s) => s.push opening
      | (false, s) => s
    else s
  let s ← { s with keyAllowed }.giveUpKey
  return s.pushMark t 1

/-- Starts a value. The text before it is a key if it can be one. -/
def startValue (s : Layout) : Except Fault Layout :=
  match s.key? with
  | some key =>
    let s := s.forget
    let (opens, s) := if s.flow = 0 then s.deepen key.column else (false, s)
    let s := s.insert key.position (if opens then [.blockRecordStart, .key] else [.key])
    .ok { s.pushMark .value 1 with keyAllowed := false }
  | none => s.startItem .blockRecordStart .value (s.flow = 0)

/-- Adds a token that may be part of a key, with what `read` makes of the text here. -/
def pushNoted (s : Layout) (read : Cursor → Except Fault (Token × Cursor)) :
    Except Fault Layout := do
  let s ← s.noteKey
  let (t, cursor) ← read s.cursor
  return { s.push t with cursor, keyAllowed := false }

/-- Adds a block of lines, after which a key may start. -/
def pushBlock (s : Layout) (folded : Bool) : Except Fault Layout := do
  let s ← { s with keyAllowed := true }.giveUpKey
  let (content, cursor) ← Block.read folded s.indent s.cursor
  return { s.push (.text content false) with cursor }

/-- Adds a plain text. A key may start after it if it ended at the start of a line. -/
def pushPlain (s : Layout) : Except Fault Layout := do
  let s ← s.noteKey
  let (content, cursor, keyAllowed) := Plain.read (s.flow ≠ 0) (s.indent + 1) s.cursor
  return { s.push (.text content true) with cursor, keyAllowed }

/-- The characters that no plain text starts with. -/
def indicators : List Char := "-?:,[]\x7b\x7d#&*!|>\x27\x22%@\x60".toList

/-- Whether a plain text starts here. -/
def atPlain (s : Layout) : Bool :=
  match s.cursor.peek with
  | none => false
  | some x =>
    !(isSpace x || isBreak x || indicators.contains x) ||
      (!endsWord (s.cursor.peekAt 1) && (x = '-' || (s.flow = 0 && (x = '?' || x = ':'))))

/-- Adds the token that starts with the character `x`, where the cursor stands. -/
def pushToken (s : Layout) (x : Char) : Except Fault Layout := do
  let c := s.cursor
  let lone := endsWord (c.peekAt 1)
  if x = '%' && c.column = 0 then
    let s ← s.closeAll
    let (directive, cursor) ← readDirective s.cursor
    return { s.push (.directive directive) with cursor }
  else if c.column = 0 && c.atMark "---" then return (← s.closeAll).pushMark .documentStart 3
  else if c.column = 0 && c.atMark "..." then return (← s.closeAll).pushMark .documentEnd 3
  else if x = '[' then s.openBracket .flowListStart
  else if x = '\x7b' then s.openBracket .flowRecordStart
  else if x = ']' then s.closeBracket .flowListEnd
  else if x = '\x7d' then s.closeBracket .flowRecordEnd
  else if x = ',' then return (← { s with keyAllowed := true }.giveUpKey).pushMark .flowEntry 1
  else if x = '-' && lone then s.startItem .blockListStart .blockEntry true
  else if x = '?' && (s.flow ≠ 0 || lone) then s.startItem .blockRecordStart .key (s.flow = 0)
  else if x = ':' && (s.flow ≠ 0 || lone) then s.startValue
  else if x = '*' then
    s.pushNoted fun c => do let (name, c) ← readAnchor c; return (.alias name, c)
  else if x = '&' then
    s.pushNoted fun c => do let (name, c) ← readAnchor c; return (.anchor name, c)
  else if x = '!' then s.pushNoted readTag
  else if x = '|' && s.flow = 0 then s.pushBlock false
  else if x = '>' && s.flow = 0 then s.pushBlock true
  else if x = '\x27' || x = '\x22' then
    s.pushNoted fun c => do
      let (content, c) ← Quoted.read (x = '\x22') c
      return (.text content false, c)
  else if s.atPlain then s.pushPlain
  else throw .malformedYaml

/-- Reads to the end of the text. Every step passes a character, so their number is enough
`fuel`. -/
def readAll : Nat → Layout → Except Fault (List Token)
  | 0, _ => .error .malformedYaml
  | fuel + 1, s => do
    let s ← (s.skipGap (s.cursor.rest.length + 1)).giveUpOldKeys
    let s := s.close s.cursor.column
    match s.cursor.peek with
    | none => return (← s.closeAll).tokens.toList
    | some x => readAll fuel (← s.pushToken x)

end Layout

/-- The tokens of a text, in which a byte order mark may stand first. -/
def Token.ofText (text : String) : Except Fault (List Token) :=
  let cs := text.toList
  if cs.all isAllowed then
    let start : Cursor := { rest := cs }
    let start := if start.peek = some '\ufeff' then start.next else start
    Layout.readAll (cs.length + 1) { cursor := start }
  else .error .malformedYaml

end Retrace.Yaml
