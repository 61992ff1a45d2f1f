/-!
# Ends of lines

Texts are read with one way to end a line: a line feed. A carriage return, alone or in front of a
line feed, becomes one.
-/

namespace Retrace.Text

/-- The characters with every end of a line written as a line feed. -/
def unifyLines : List Char → List Char
  | '\r' :: '\n' :: rest => '\n' :: unifyLines rest
  | '\r' :: rest => '\n' :: unifyLines rest
  | c :: rest => c :: unifyLines rest
  | [] => []

/-- A text with every end of a line written as a line feed. -/
def unified (text : String) : String := String.ofList (unifyLines text.toList)

end Retrace.Text
