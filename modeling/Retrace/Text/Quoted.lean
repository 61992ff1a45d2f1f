import Retrace.Text.CharClass

/-!
# Quoted text

A text inside a message is written between marks, with escapes for what cannot be shown, so that
`it's`, a blank and a line break can be told apart in one line. A list of texts is written in
brackets.
-/

namespace Retrace.Text

/-- `n` in base sixteen, lower case, with at least `width` digits. -/
def hexadecimal (width n : Nat) : String :=
  let digits := Nat.toDigits 16 n
  String.ofList (List.replicate (width - digits.length) '0' ++ digits)

/-- The mark around a quoted text: an apostrophe, unless the text holds one and no double quote. -/
def quoteMark (cs : List Char) : Char :=
  if cs.contains '\x27' && !cs.contains '\x22' then '\x22' else '\x27'

/-- How one character is written between two `mark`s. -/
def quotedChar (mark c : Char) : String :=
  if c = '\\' || c = mark then String.ofList ['\\', c]
  else if c = '\n' then "\\n"
  else if c = '\r' then "\\r"
  else if c = '\t' then "\\t"
  else if isPrintable c then c.toString
  else if c.toNat < 0x100 then "\\x" ++ hexadecimal 2 c.toNat
  else if c.toNat < 0x10000 then "\\u" ++ hexadecimal 4 c.toNat
  else if let some half := surrogate? c then "\\u" ++ hexadecimal 4 half
  else "\\U" ++ hexadecimal 8 c.toNat

/-- `text` between marks, on one line. -/
def quoted (text : String) : String :=
  let cs := text.toList
  let mark := quoteMark cs
  mark.toString ++ String.join (cs.map (quotedChar mark)) ++ mark.toString

/-- The first `limit` characters of a text. -/
def clipped (limit : Nat) (text : String) : String := String.ofList (text.toList.take limit)

/-- Parts in brackets, divided by commas. -/
def bracketed (parts : List String) : String :=
  "[" ++ ", ".intercalate parts ++ "]"

/-- A list of quoted texts in brackets. -/
def quotedList (texts : List String) : String :=
  bracketed (texts.map quoted)

end Retrace.Text
