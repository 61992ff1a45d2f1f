import Retrace.Fault

/-!
# A place in a text

A cursor is what is left of a text, with the line and the column where that begins. Four characters
end a line. Two of them count as the same line break; the other two, the line and the paragraph
separator, are kept as they are where lines are joined.
-/

namespace Retrace.Yaml

/-! ## Characters -/

/-- The characters that a text may hold. -/
def isAllowed (c : Char) : Bool :=
  let n := c.toNat
  c = '\t' || c = '\n' || c = '\r' || (0x20 ≤ n && n ≤ 0x7E) || n = 0x85 ||
    (0xA0 ≤ n && n ≤ 0xFFFD) || 0x10000 ≤ n

/-- The characters that end a line. -/
def isBreak (c : Char) : Bool := c = '\n' || c = '\x85' || c = '\u2028' || c = '\u2029'

/-- The blanks within a line. -/
def isSpace (c : Char) : Bool := c = ' ' || c = '\t'

/-- The letters, digits and marks of names. -/
def isNameChar (c : Char) : Bool := c.isAlphanum || c = '-' || c = '_'

/-- The digits of base sixteen. -/
def isHexDigit (c : Char) : Bool :=
  c.isDigit || ('a' ≤ c && c ≤ 'f') || ('A' ≤ c && c ≤ 'F')

/-- Whether a line ends before the next character. -/
def endsLine (next : Option Char) : Bool := next.all isBreak

/-- Whether a field, which a blank or the end of a line ends, ends before the next character. -/
def endsField (next : Option Char) : Bool := next.all fun c => c = ' ' || isBreak c

/-- Whether a word ends before the next character. -/
def endsWord (next : Option Char) : Bool := next.all fun c => isSpace c || isBreak c

/-! ## Cursors -/

/-- A place in a text. -/
structure Cursor where
  rest : List Char
  /-- how many characters precede it -/
  index : Nat := 0
  line : Nat := 0
  column : Nat := 0
deriving Inhabited

namespace Cursor

/-- The next character. -/
def peek (c : Cursor) : Option Char := c.rest.head?

/-- The character `n` places further on. -/
def peekAt (c : Cursor) (n : Nat) : Option Char := c.rest[n]?

/-- The place after the next character. A byte order mark takes no column. -/
def next (c : Cursor) : Cursor :=
  match c.rest with
  | [] => c
  | x :: rest =>
    if isBreak x then { rest, index := c.index + 1, line := c.line + 1, column := 0 }
    else
      let column := if x = '\ufeff' then c.column else c.column + 1
      { rest, index := c.index + 1, line := c.line, column }

/-- The place `n` characters further on. -/
def skip (c : Cursor) : Nat → Cursor
  | 0 => c
  | n + 1 => c.next.skip n

/-- The characters from here on for which `p` holds. -/
def span (c : Cursor) (p : Char → Bool) : List Char := c.rest.takeWhile p

/-- The place after the characters for which `p` holds. -/
def skipWhile (c : Cursor) (p : Char → Bool) : Cursor := c.skip (c.span p).length

/-- The place after the blanks, tabs not among them. -/
def skipBlanks (c : Cursor) : Cursor := c.skipWhile (· = ' ')

/-- The line break here, if there is one, as it counts in a text, and the place after it. -/
def takeBreak (c : Cursor) : List Char × Cursor :=
  match c.rest with
  | x :: _ =>
    if x = '\n' || x = '\x85' then (['\n'], c.next)
    else if isBreak x then ([x], c.next)
    else ([], c)
  | [] => ([], c)

/-- Whether one of the marks between documents stands here. -/
def atMark (c : Cursor) (mark : String) : Bool :=
  mark.toList.isPrefixOf c.rest && endsWord (c.peekAt mark.length)

/-- Whether a document ends or starts here. -/
def atSeparator (c : Cursor) : Bool := c.atMark "---" || c.atMark "..."

/-- The place after a comment, if one stands here. -/
def skipComment (c : Cursor) : Cursor :=
  if c.peek = some '#' then c.skipWhile fun x => !isBreak x else c

/-- The place after the rest of a line that holds nothing but a comment. -/
def skipEmptyLine (c : Cursor) : Except Fault Cursor :=
  let c := c.skipBlanks.skipComment
  if endsLine c.peek then .ok c.takeBreak.2 else .error .malformedYaml

end Cursor

end Retrace.Yaml
