import Retrace.Text.Integer
import Retrace.Yaml.Cursor

/-!
# Texts inside a document

The three ways to write a text: plainly, between quotes, and as a block of lines.

* A plain text ends at a colon or a comment that follows a blank, at a line that is not indented far
  enough, and within brackets at any mark of punctuation. Its lines are joined by blanks; an empty
  line between them is kept as a line break.
* A quoted text is joined in the same way. Between double quotes a backslash starts an escape, and
  before the end of a line it joins the lines without a blank. Between single quotes a quote is
  doubled.
* A block starts after its header, and all its lines are indented by the same amount. Its lines are
  kept, or joined if the block is a folded one. The header says what becomes of the line breaks at
  its end.

In each function `acc` holds what was read so far, the last character first.
-/

namespace Retrace.Yaml

/-- A line break and the empty lines after it, when the lines around them are joined. -/
def joined (lineBreak breaks : List Char) : List Char :=
  if lineBreak ≠ ['\n'] then lineBreak ++ breaks
  else if breaks.isEmpty then [' ']
  else breaks

/-! ## Plain texts -/

namespace Plain

/-- The characters that end a plain text within brackets. -/
def brackets : List Char := [',', '[', ']', '\x7b', '\x7d']

/-- The characters of a plain text up to the next blank or its end. -/
def run (inFlow : Bool) : List Char → List Char
  | [] => []
  | c :: cs =>
    let colon := c = ':' && (endsWord cs.head? || (inFlow && cs.head?.any (brackets.contains ·)))
    if isSpace c || isBreak c || colon || (inFlow && (c = '?' || brackets.contains c)) then []
    else c :: run inFlow cs

/-- The empty lines and the blanks before the next line of a plain text; nothing if the document
ends first. Every step passes a character, so their number is enough `fuel`. -/
def emptyLines : Nat → List Char → Cursor → Option (List Char) × Cursor
  | 0, acc, c => (some acc.reverse, c)
  | fuel + 1, acc, c =>
    if c.peek = some ' ' then emptyLines fuel acc c.next
    else if c.peek.any isBreak then
      let (lineBreak, c) := c.takeBreak
      if c.atSeparator then (none, c) else emptyLines fuel (lineBreak.reverse ++ acc) c
    else (some acc.reverse, c)

/-- What stands between two runs of a plain text, and whether a line ended there. -/
def gap (c : Cursor) : List Char × Cursor × Bool :=
  let blanks := c.span (· = ' ')
  let c := c.skipBlanks
  if c.peek.any isBreak then
    let (lineBreak, c) := c.takeBreak
    if c.atSeparator then ([], c, true)
    else match emptyLines c.rest.length [] c with
      | (some breaks, c) => (joined lineBreak breaks, c, true)
      | (none, c) => ([], c, true)
  else (blanks, c, false)

/-- The rest of a plain text after the gap `between`, and whether it ended at the start of a line.
Every step passes a character. -/
def readFrom (inFlow : Bool) (indent : Int) :
    Nat → List Char → List Char → Bool → Cursor → List Char × Cursor × Bool
  | 0, acc, _, fresh, c => (acc, c, fresh)
  | fuel + 1, acc, between, fresh, c =>
    let characters := run inFlow c.rest
    if c.peek = some '#' || characters.isEmpty then (acc, c, fresh)
    else
      let acc := characters.reverse ++ between.reverse ++ acc
      let (between, c, fresh) := gap (c.skip characters.length)
      if between.isEmpty || c.peek = some '#' || (!inFlow && c.column < indent) then (acc, c, fresh)
      else readFrom inFlow indent fuel acc between fresh c

/-- The plain text here, the place after it, and whether that is the start of a line. The lines
after the first have to be indented by `indent`. -/
def read (inFlow : Bool) (indent : Int) (c : Cursor) : String × Cursor × Bool :=
  let (acc, c, fresh) := readFrom inFlow indent c.rest.length [] [] false c
  (String.ofList acc.reverse, c, fresh)

end Plain

/-! ## Quoted texts -/

namespace Quoted

/-- The character that an escape of one letter stands for. -/
def escape? (c : Char) : Option Char :=
  match c with
  | '0' => some '\x00'
  | 'a' => some '\x07'
  | 'b' => some '\x08'
  | 't' | '\t' => some '\t'
  | 'n' => some '\n'
  | 'v' => some '\x0b'
  | 'f' => some '\x0c'
  | 'r' => some '\r'
  | 'e' => some '\x1b'
  | ' ' => some ' '
  | '\x22' => some '\x22'
  | '\\' => some '\\'
  | '/' => some '/'
  | 'N' => some '\x85'
  | '_' => some '\xa0'
  | 'L' => some '\u2028'
  | 'P' => some '\u2029'
  | _ => none

/-- How many hexadecimal digits follow the letter of an escape. -/
def codeLength? (c : Char) : Option Nat :=
  match c with
  | 'x' => some 2
  | 'u' => some 4
  | 'U' => some 8
  | _ => none

/-- The character of a code. -/
def charOf (code : Nat) : Except Fault Char :=
  if code < 0x110000 then .ok (Text.ofCode code)
  else .error (.unusable (if code < 0x80000000 then .value else .overflow))

/-- The empty lines before the next line of a quoted text, which no document may end. Every step
passes a character, so their number is enough `fuel`. -/
def emptyLines : Nat → List Char → Cursor → Except Fault (List Char × Cursor)
  | 0, acc, c => .ok (acc.reverse, c)
  | fuel + 1, acc, c =>
    if c.atSeparator then .error .malformedYaml
    else
      let c := c.skipWhile isSpace
      if c.peek.any isBreak then
        let (lineBreak, c) := c.takeBreak
        emptyLines fuel (lineBreak.reverse ++ acc) c
      else .ok (acc.reverse, c)

/-- The characters of a quoted text up to the next blank or its end. Every step passes a
character. -/
def run (double : Bool) : Nat → List Char → Cursor → Except Fault (List Char × Cursor)
  | 0, acc, c => .ok (acc, c)
  | fuel + 1, acc, c =>
    match c.rest with
    | [] => .ok (acc, c)
    | x :: rest =>
      if isSpace x || isBreak x then .ok (acc, c)
      else if !double then
        if x ≠ '\x27' then run double fuel (x :: acc) c.next
        else if rest.head? = some '\x27' then run double fuel (x :: acc) (c.skip 2)
        else .ok (acc, c)
      else if x = '\x22' then .ok (acc, c)
      else if x ≠ '\\' then run double fuel (x :: acc) c.next
      else
        match rest with
        | [] => .error .malformedYaml
        | e :: rest =>
          match escape? e, codeLength? e with
          | some y, _ => run double fuel (y :: acc) (c.skip 2)
          | none, some n =>
            let digits := rest.take n
            if digits.length = n && digits.all isHexDigit then do
              let y ← charOf ((Text.readDigitsIn? 16 digits).getD 0)
              run double fuel (y :: acc) (c.skip (2 + n))
            else .error .malformedYaml
          | none, none =>
            if isBreak e then do
              let c := c.next.takeBreak.2
              let (breaks, c) ← emptyLines (c.rest.length + 1) [] c
              run double fuel (breaks.reverse ++ acc) c
            else .error .malformedYaml

/-- What stands between two runs of a quoted text. -/
def gap (c : Cursor) : Except Fault (List Char × Cursor) := do
  let blanks := c.span isSpace
  let c := c.skipWhile isSpace
  if c.rest.isEmpty then throw .malformedYaml
  else if c.peek.any isBreak then
    let (lineBreak, c) := c.takeBreak
    let (breaks, c) ← emptyLines (c.rest.length + 1) [] c
    return (joined lineBreak breaks, c)
  else return (blanks, c)

/-- The rest of a quoted text after one of its runs. Every step passes a character. -/
def readFrom (double : Bool) (quote : Char) :
    Nat → List Char → Cursor → Except Fault (List Char × Cursor)
  | 0, _, _ => .error .malformedYaml
  | fuel + 1, acc, c =>
    if c.peek = some quote then .ok (acc, c.next)
    else do
      let (between, c) ← gap c
      let (acc, c) ← run double c.rest.length (between.reverse ++ acc) c
      readFrom double quote fuel acc c

/-- The text between the quotes that start here, and the place after them. -/
def read (double : Bool) (c : Cursor) : Except Fault (String × Cursor) := do
  let quote := if double then '\x22' else '\x27'
  let c := c.next
  let (acc, c) ← run double c.rest.length [] c
  let (acc, c) ← readFrom double quote (c.rest.length + 1) acc c
  return (String.ofList acc.reverse, c)

end Quoted

/-! ## Blocks -/

namespace Block

/-- What becomes of the line breaks at the end of a block. -/
inductive Tail where
  /-- the first one is kept -/
  | clip
  | strip
  | keep
deriving DecidableEq, Repr, Inhabited

/-- What a sign in the header says about the end of the block. -/
def tailOf? : Option Char → Option Tail
  | some '+' => some .keep
  | some '-' => some .strip
  | _ => none

/-- The digit of a header, which is not zero. -/
def amount (c : Cursor) : Except Fault (Option Nat × Cursor) :=
  match c.peek with
  | some x =>
    if !x.isDigit then .ok (none, c)
    else if x = '0' then .error .malformedYaml
    else .ok (some (x.toNat - 0x30), c.next)
  | none => .ok (none, c)

/-- The header of a block: a sign and the amount of the indentation, in either order, both
optional. -/
def header (c : Cursor) : Except Fault (Tail × Option Nat × Cursor) := do
  let (tail, amount?, c) ← match tailOf? c.peek with
    | some tail => do
      let (n, c) ← amount c.next
      pure (tail, n, c)
    | none => do
      let (n, c) ← amount c
      match n, tailOf? c.peek with
      | some _, some tail => pure (tail, n, c.next)
      | _, _ => pure (.clip, n, c)
  if endsField c.peek then return (tail, amount?, ← c.skipEmptyLine) else throw .malformedYaml

/-- The empty lines at the start of a block and the widest indentation up to its first other line.
Every step passes a character, so their number is enough `fuel`. -/
def leading : Nat → List Char → Nat → Cursor → List Char × Nat × Cursor
  | 0, acc, widest, c => (acc.reverse, widest, c)
  | fuel + 1, acc, widest, c =>
    if c.peek = some ' ' then leading fuel acc (max widest (c.column + 1)) c.next
    else if c.peek.any isBreak then
      let (lineBreak, c) := c.takeBreak
      leading fuel (lineBreak.reverse ++ acc) widest c
    else (acc.reverse, widest, c)

/-- The place after at most as many blanks as lead to the column `indent`. -/
def skipIndent (indent : Nat) (c : Cursor) : Cursor :=
  c.skip (min (indent - c.column) (c.span (· = ' ')).length)

/-- The empty lines before the next line of a block. Every step passes a character. -/
def emptyLines (indent : Nat) : Nat → List Char → Cursor → List Char × Cursor
  | 0, acc, c => (acc.reverse, c)
  | fuel + 1, acc, c =>
    let c := skipIndent indent c
    if c.peek.any isBreak then
      let (lineBreak, c) := c.takeBreak
      emptyLines indent fuel (lineBreak.reverse ++ acc) c
    else (acc.reverse, c)

/-- The lines of a block. Returns the text up to its last line, the line break after that one and
the empty lines after it. Every step passes a character. -/
def lines (folded : Bool) (indent : Nat) :
    Nat → List Char → List Char → List Char → Cursor → List Char × List Char × List Char × Cursor
  | 0, acc, lineBreak, breaks, c => (acc, lineBreak, breaks, c)
  | fuel + 1, acc, lineBreak, breaks, c =>
    if c.column ≠ indent || c.rest.isEmpty then (acc, lineBreak, breaks, c)
    else
      let indented := c.peek.any isSpace
      let line := c.span fun x => !isBreak x
      let acc := line.reverse ++ breaks.reverse ++ acc
      let (lineBreak, c) := (c.skip line.length).takeBreak
      let (breaks, c) := emptyLines indent (c.rest.length + 1) [] c
      if c.column ≠ indent || c.rest.isEmpty then (acc, lineBreak, breaks, c)
      else
        let between :=
          if folded && lineBreak = ['\n'] && !indented && !c.peek.any isSpace then
            if breaks.isEmpty then [' '] else []
          else lineBreak
        lines folded indent fuel (between.reverse ++ acc) lineBreak breaks c

/-- The text of the block whose header starts here, and the place after it. The block is part of
lines that are indented by `outer`. -/
def read (folded : Bool) (outer : Int) (c : Cursor) : Except Fault (String × Cursor) := do
  let (tail, amount?, c) ← header c.next
  let least := (max 1 (outer + 1)).toNat
  let fuel := c.rest.length + 1
  let (breaks, indent, c) := match amount? with
    | none =>
      let (breaks, widest, c) := leading fuel [] 0 c
      (breaks, max least widest, c)
    | some n =>
      let indent := least + n - 1
      let (breaks, c) := emptyLines indent fuel [] c
      (breaks, indent, c)
  let (acc, lineBreak, breaks, c) := lines folded indent fuel [] [] breaks c
  let ending := match tail with
    | .clip => lineBreak
    | .strip => []
    | .keep => lineBreak ++ breaks
  return (String.ofList (acc.reverse ++ ending), c)

end Block

end Retrace.Yaml
