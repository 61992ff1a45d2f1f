import Retrace.Datum
import Retrace.Datum.Real
import Retrace.Text.Quoted

/-!
# Data as JSON

`Json.write` lays a value out on one line or with one item a line; everything beyond printable
ASCII is escaped. `Json.read?` accepts one value with blanks around it. It also takes `NaN` and
the infinities, and of a repeated key it keeps the last value. `Datum.shown` is the other text of a
value, the one that messages give.
-/

namespace Retrace

/-! ## Writing -/

namespace Json

/-- A code unit as an escape. -/
def unitEscape (n : Nat) : String := "\\u" ++ Text.hexadecimal 4 n

/-- How one character is written inside a JSON text. -/
def escapedChar (c : Char) : String :=
  let n := c.toNat
  if c = '\x22' then "\\\""
  else if c = '\\' then "\\\\"
  else if c = '\n' then "\\n"
  else if c = '\r' then "\\r"
  else if c = '\t' then "\\t"
  else if n = 0x08 then "\\b"
  else if n = 0x0C then "\\f"
  else if 0x20 ≤ n && n < 0x7F then c.toString
  else if n < 0x10000 then unitEscape n
  else if let some half := Text.surrogate? c then unitEscape half
  else
    let offset := n - 0x10000
    unitEscape (0xD800 + offset / 0x400) ++ unitEscape (0xDC00 + offset % 0x400)

/-- A text between double quotes. -/
def writeText (s : String) : String :=
  "\"" ++ String.join (s.toList.map escapedChar) ++ "\""

/-- The spelling of a floating point number. -/
def writeReal (x : Float) : String :=
  if x.isNaN then "NaN"
  else if x.isInf then (if x < 0.0 then "-Infinity" else "Infinity")
  else Real.text x

/-- Items between an opening and a closing bracket. Without an indent they stand on one line; with
an indent each stands on its own line, `depth + 1` steps in. -/
def enclose (indent : Option Nat) (depth : Nat) (opening closing : String) (items : List String) :
    String :=
  if items.isEmpty then opening ++ closing
  else
    match indent with
    | none => opening ++ ", ".intercalate items ++ closing
    | some width =>
      let pad (n : Nat) := "\n" ++ String.ofList (List.replicate (width * n) ' ')
      let inner := pad (depth + 1)
      opening ++ inner ++ ("," ++ inner).intercalate items ++ pad depth ++ closing

mutual

/-- The text of a value that stands `depth` levels deep. -/
def writeAt (indent : Option Nat) (depth : Nat) : Datum → String
  | .null => "null"
  | .bool b => if b then "true" else "false"
  | .int i => toString i
  | .real x => writeReal x
  | .text s => writeText s
  | .list items => enclose indent depth "[" "]" (writeItems indent (depth + 1) items)
  | .record fields => enclose indent depth "\x7b" "\x7d" (writeFields indent (depth + 1) fields)

/-- The texts of the items of a list. -/
def writeItems (indent : Option Nat) (depth : Nat) : List Datum → List String
  | [] => []
  | item :: rest => writeAt indent depth item :: writeItems indent depth rest

/-- The texts of the entries of a record. -/
def writeFields (indent : Option Nat) (depth : Nat) : List (String × Datum) → List String
  | [] => []
  | (key, value) :: rest =>
    (writeText key ++ ": " ++ writeAt indent depth value) :: writeFields indent depth rest

end

/-- The text of a value: on one line, or with the given number of blanks a level. -/
def write (indent : Option Nat) (d : Datum) : String := writeAt indent 0 d

/-! ## Reading -/

/-- The blanks between the parts of a JSON text. -/
def isGap (c : Char) : Bool := c = ' ' || c = '\t' || c = '\n' || c = '\r'

/-- The input after its leading blanks. -/
def skipGap (cs : List Char) : List Char := cs.dropWhile isGap

/-- The value of a hexadecimal digit. -/
def hexValue? (c : Char) : Option Nat :=
  if c.isDigit then some (c.toNat - 0x30)
  else if 'a' ≤ c && c ≤ 'f' then some (c.toNat - 0x61 + 10)
  else if 'A' ≤ c && c ≤ 'F' then some (c.toNat - 0x41 + 10)
  else none

/-- The value of four hexadecimal digits. -/
def readUnit? (a b c d : Char) : Option Nat := do
  pure ((((← hexValue? a) * 16 + (← hexValue? b)) * 16 + (← hexValue? c)) * 16 + (← hexValue? d))

/-- The character of a single-letter escape. -/
def simpleEscape? (c : Char) : Option Char :=
  match c with
  | '\x22' => some '\x22'
  | '\\' => some '\\'
  | '/' => some '/'
  | 'b' => some '\x08'
  | 'f' => some '\x0c'
  | 'n' => some '\n'
  | 'r' => some '\r'
  | 't' => some '\t'
  | _ => none

/-- The rest of a text after its opening quote; `acc` holds what was read, last character first.
Two escapes that form a surrogate pair denote one character. -/
def readText (acc : List Char) : List Char → Option (String × List Char)
  | [] => none
  | '\x22' :: rest => some (String.ofList acc.reverse, rest)
  | '\\' :: 'u' :: a :: b :: c :: d :: '\\' :: 'u' :: e :: f :: g :: h :: rest => do
    let high ← readUnit? a b c d
    let low := (readUnit? e f g h).getD 0
    if 0xD800 ≤ high && high < 0xDC00 && 0xDC00 ≤ low && low < 0xE000 then
      readText (Char.ofNat (0x10000 + (high - 0xD800) * 0x400 + (low - 0xDC00)) :: acc) rest
    else
      readText (Text.ofCode high :: acc) ('\\' :: 'u' :: e :: f :: g :: h :: rest)
  | '\\' :: 'u' :: a :: b :: c :: d :: rest => do
    readText (Text.ofCode (← readUnit? a b c d) :: acc) rest
  | '\\' :: c :: rest => do readText ((← simpleEscape? c) :: acc) rest
  | c :: rest => if c.toNat < 0x20 then none else readText (c :: acc) rest

/-- A number: digits without a leading zero, a fraction, an exponent. Only a number with neither
of the last two is an integer. -/
def readNumber (cs : List Char) : Option (Datum × List Char) :=
  let negative := cs.head? = some '-'
  let cs := if negative then cs.tail else cs
  let whole := cs.takeWhile Char.isDigit
  let whole := if whole.head? = some '0' then ['0'] else whole
  if whole.isEmpty then none
  else
    let rest := cs.drop whole.length
    let fraction := match rest with
      | '.' :: r => r.takeWhile Char.isDigit
      | _ => []
    let rest := if fraction.isEmpty then rest else rest.drop (fraction.length + 1)
    let exponent : Option (Int × List Char) := match rest with
      | e :: r =>
        if e = 'e' || e = 'E' then
          let (sign, r) := match r with
            | '-' :: after => (-1, after)
            | '+' :: after => (1, after)
            | _ => ((1 : Int), r)
          let digits := r.takeWhile Char.isDigit
          if digits.isEmpty then none
          else some (sign * Text.digitsValue digits, r.drop digits.length)
        else none
      | [] => none
    if fraction.isEmpty && exponent.isNone then
      let n : Int := Text.digitsValue whole
      some (.int (if negative then -n else n), rest)
    else
      let (shift, rest) := exponent.getD (0, rest)
      let weight : Int := shift - fraction.length
      let size := Real.ofDecimal (Text.digitsValue (whole ++ fraction)) weight
      some (.real (if negative then -size else size), rest)

/-- What follows `word` at the start of the input. -/
def afterWord? (word : String) (cs : List Char) : Option (List Char) :=
  if word.toList.isPrefixOf cs then some (cs.drop word.length) else none

mutual

/-- One value at the start of the input, and what follows it. Every call reads at least one
character or hands over to a call that does, so twice the length of the input is enough `fuel`. -/
def readValue : Nat → List Char → Option (Datum × List Char)
  | 0, _ => none
  | fuel + 1, cs =>
    match skipGap cs with
    | '\x22' :: rest => (readText [] rest).map fun (s, r) => (.text s, r)
    | '[' :: rest =>
      match skipGap rest with
      | ']' :: r => some (.list [], r)
      | r => readItems fuel [] r
    | '\x7b' :: rest =>
      match skipGap rest with
      | '\x7d' :: r => some (.record [], r)
      | r => readFields fuel [] r
    | cs =>
      match afterWord? "null" cs with
      | some r => some (.null, r)
      | none =>
      match afterWord? "true" cs with
      | some r => some (.bool true, r)
      | none =>
      match afterWord? "false" cs with
      | some r => some (.bool false, r)
      | none =>
      match afterWord? "NaN" cs with
      | some r => some (.real (0.0 / 0.0), r)
      | none =>
      match afterWord? "Infinity" cs with
      | some r => some (.real (1.0 / 0.0), r)
      | none =>
      match afterWord? "-Infinity" cs with
      | some r => some (.real (-1.0 / 0.0), r)
      | none => readNumber cs

/-- The rest of a list; `acc` holds the items so far, last one first. -/
def readItems : Nat → List Datum → List Char → Option (Datum × List Char)
  | 0, _, _ => none
  | fuel + 1, acc, cs => do
    let (item, rest) ← readValue fuel cs
    match skipGap rest with
    | ',' :: r => readItems fuel (item :: acc) r
    | ']' :: r => some (.list (item :: acc).reverse, r)
    | _ => none

/-- The rest of a record; `acc` holds the entries so far. -/
def readFields : Nat → List (String × Datum) → List Char → Option (Datum × List Char)
  | 0, _, _ => none
  | fuel + 1, acc, cs =>
    match skipGap cs with
    | '\x22' :: rest => do
      let (key, rest) ← readText [] rest
      match skipGap rest with
      | ':' :: rest =>
        let (value, rest) ← readValue fuel rest
        let acc := Datum.setField key value acc
        match skipGap rest with
        | ',' :: r => readFields fuel acc r
        | '\x7d' :: r => some (.record acc, r)
        | _ => none
      | _ => none
    | _ => none

end

/-- The value that a JSON text denotes. -/
def read? (text : String) : Option Datum :=
  let cs := text.toList
  match readValue (2 * cs.length + 2) cs with
  | some (d, rest) => if (skipGap rest).isEmpty then some d else none
  | none => none

end Json

/-! ## The text of a value in a message -/

namespace Datum

mutual

/-- A value as messages show it inside another value: texts are quoted. -/
def quoted : Datum → String
  | .null => "None"
  | .bool b => if b then "True" else "False"
  | .int i => toString i
  | .real x => Real.text x
  | .text s => Text.quoted s
  | .list items => Text.bracketed (quotedItems items)
  | .record fields => "\x7b" ++ ", ".intercalate (quotedFields fields) ++ "\x7d"

/-- The items of a list as messages show them. -/
def quotedItems : List Datum → List String
  | [] => []
  | item :: rest => quoted item :: quotedItems rest

/-- The entries of a record as messages show them. -/
def quotedFields : List (String × Datum) → List String
  | [] => []
  | (key, value) :: rest => (Text.quoted key ++ ": " ++ quoted value) :: quotedFields rest

end

/-- A value as messages show it: a text as it is, any other value as inside a list. -/
def shown : Datum → String
  | .text s => s
  | d => quoted d

end Datum

end Retrace
