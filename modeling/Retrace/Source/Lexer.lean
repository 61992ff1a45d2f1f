import Retrace.Fault
import Retrace.Source.Token

/-!
# From text to tokens

Between tokens stand blanks, tabs, line ends and comments. A token is as long as it can be: a run
of digits, a name, or the longest symbol that fits. Only a line feed ends a line.
-/

namespace Retrace

/-- A line and a column, both from one. -/
structure Cursor where
  line : Nat := 1
  column : Nat := 1
deriving DecidableEq, Repr, Inhabited

namespace Cursor

/-- The place after a character. -/
def next (cursor : Cursor) (c : Char) : Cursor :=
  if c = '\n' then ⟨cursor.line + 1, 1⟩ else ⟨cursor.line, cursor.column + 1⟩

/-- The place after a text. -/
def after (cursor : Cursor) (cs : List Char) : Cursor := cs.foldl next cursor

/-- The place in a file. -/
def loc (cursor : Cursor) (file : String) : Location := ⟨cursor.line, cursor.column, file⟩

end Cursor

namespace Lexer

/-- The blanks of source text. -/
def isSpace (c : Char) : Bool := c = ' ' || c = '\t' || c = '\r' || c = '\n'

/-- What surrounds a character between two tokens. -/
inductive Gap where
  | blank
  | line
  | block (opened : Location)
deriving DecidableEq, Repr

/-- Skips blanks and comments; `gap` says what the input starts in. -/
def skipGap (file : String) : Gap → Cursor → List Char → Except Fault (Cursor × List Char)
  | .blank, cursor, [] => .ok (cursor, [])
  | .blank, cursor, '/' :: '/' :: rest =>
    skipGap file .line ((cursor.next '/').next '/') rest
  | .blank, cursor, '/' :: '*' :: rest =>
    skipGap file (.block (cursor.loc file)) ((cursor.next '/').next '*') rest
  | .blank, cursor, c :: rest =>
    if isSpace c then skipGap file .blank (cursor.next c) rest else .ok (cursor, c :: rest)
  | .line, cursor, [] => .ok (cursor, [])
  | .line, cursor, c :: rest =>
    skipGap file (if c = '\n' then .blank else .line) (cursor.next c) rest
  | .block opened, _, [] => .error (.failure (.reading "Unterminated block comment" opened))
  | .block _, cursor, '*' :: '/' :: rest =>
    skipGap file .blank ((cursor.next '*').next '/') rest
  | .block opened, cursor, c :: rest => skipGap file (.block opened) (cursor.next c) rest

/-- Whether a character can start a name. -/
def startsName (c : Char) : Bool := Text.isLetter c || c = '_'

/-- Whether a character can continue a name. -/
def continuesName (c : Char) : Bool := Text.isWordChar c || c = '_'

/-- The kind and the text of the token at the start of a non-empty input. -/
def lexeme (loc : Location) (c : Char) (rest : List Char) :
    Except Fault (TokenKind × List Char) :=
  let cs := c :: rest
  if Text.isDigit c then
    let digits := cs.takeWhile Text.isDigit
    match cs.dropWhile Text.isDigit with
    | d :: _ =>
      if startsName d then
        .error (.failure (.reading
          ("Invalid number literal '" ++ String.ofList (digits ++ [d]) ++ "'") loc))
      else .ok (.number, digits)
    | [] => .ok (.number, digits)
  else if startsName c then
    let name := cs.takeWhile continuesName
    match TokenKind.keywords.find? fun entry => entry.1 = String.ofList name with
    | some entry => .ok (entry.2, name)
    | none => .ok (.ident, name)
  else
    match TokenKind.symbols.find? fun entry => entry.1.toList.isPrefixOf cs with
    | some entry => .ok (entry.2, entry.1.toList)
    | none => .error (.failure (.reading ("Unexpected character '" ++ c.toString ++ "'") loc))

/-- The tokens of the input from `cursor` on, and where it ends. Every token takes at least one
character, so the length of the input is enough `fuel`. -/
def lexFrom (file : String) : Nat → Cursor → List Char → Except Fault (List Token × Cursor)
  | 0, cursor, _ => .ok ([], cursor)
  | fuel + 1, cursor, cs => do
    let (cursor, cs) ← skipGap file .blank cursor cs
    match cs with
    | [] => pure ([], cursor)
    | c :: rest =>
      let loc := cursor.loc file
      let (kind, text) ← lexeme loc c rest
      let (tokens, stop) ← lexFrom file fuel (cursor.after text) (cs.drop text.length)
      pure (⟨kind, String.ofList text, loc⟩ :: tokens, stop)

end Lexer

/-- The tokens of a text. -/
def tokenize (source : String) (file : String) : Except Fault TokenList := do
  let cs := source.toList
  let (tokens, stop) ← Lexer.lexFrom file (cs.length + 1) {} cs
  pure ⟨tokens, stop.loc file⟩

end Retrace
