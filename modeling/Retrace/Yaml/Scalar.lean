import Retrace.Datum.Real
import Retrace.Text.Quoted
import Retrace.Yaml.Tag

/-!
# Scalars

The values without parts: nothing, truth values, numbers, bytes, stamps and texts. `Scalar.ofText`
makes one from a written text by the rules of its tag, which are wider than the forms by which a
plain word gets that tag, and can fail. As keys, two scalars are the same if they are equal as
numbers, as instants or as texts.
-/

namespace Retrace.Yaml

/-- A value without parts. -/
inductive Scalar where
  | null
  | bool (value : Bool)
  | int (value : Int)
  | real (value : Float)
  | bytes (value : List Nat)
  | stamp (value : Stamp)
  | text (value : String)
deriving Inhabited

namespace Scalar

/-! ## Reading -/

/-- Characters without underscores. -/
def withoutLines (text : String) : List Char := text.toList.filter (· ≠ '_')

/-- The parts of a text between colons. -/
def places (cs : List Char) : List String := (String.ofList cs).splitOn ":"

/-- An integer in base `radix`. -/
def integerIn (radix : Nat) (cs : List Char) : Except Fault Int :=
  match Text.readIntegerIn? radix (String.ofList cs) with
  | some n => .ok n
  | none => .error (.unusable .value)

/-- The size of the integer that digits denote: binary, octal, hexadecimal, sexagesimal or
decimal. -/
def integerSize : List Char → Except Fault Int
  | [] => .error (.unusable .index)
  | ['0'] => .ok 0
  | '0' :: 'b' :: digits => integerIn 2 digits
  | '0' :: 'x' :: digits => integerIn 16 digits
  | '0' :: digits => integerIn 8 ('0' :: digits)
  | digits =>
    if digits.contains ':' then
      (places digits).foldlM (fun n part => return 60 * n + (← integerIn 10 part.toList)) 0
    else integerIn 10 digits

/-- The integer that a text denotes. -/
def readInteger (text : String) : Except Fault Int := do
  match withoutLines text with
  | [] => throw (.unusable .index)
  | '-' :: digits => return -(← integerSize digits)
  | cs => integerSize (afterSign cs)

/-- The number that a decimal text denotes. -/
def realOf (text : String) : Except Fault Float :=
  match Real.read? text with
  | some x => .ok x
  | none => .error (.unusable .value)

/-- The size of the number that a text denotes: decimal or sexagesimal, an infinity, or no number.
The smallest places are added up first. -/
def realSize (cs : List Char) : Except Fault Float :=
  if cs = ".inf".toList then .ok (1.0 / 0.0)
  else if cs = ".nan".toList then .ok (0.0 / 0.0)
  else if cs.contains ':' then do
    let parts ← (places cs).mapM realOf
    let sum := parts.reverse.foldl (fun (sum, base) x => (sum + x * Float.ofNat base, base * 60))
      ((0.0 : Float), 1)
    return sum.1
  else realOf (String.ofList cs)

/-- The number that a text denotes. -/
def readReal (text : String) : Except Fault Float := do
  match (withoutLines text).map Char.toLower with
  | [] => throw (.unusable .index)
  | '-' :: digits => return -(← realSize digits)
  | cs => realSize (afterSign cs)

/-- The truth value that a word denotes. -/
def readBool (text : String) : Except Fault Bool :=
  let word := String.ofList (text.toList.map Char.toLower)
  if word ∈ ["yes", "true", "on"] then .ok true
  else if word ∈ ["no", "false", "off"] then .ok false
  else .error (.unusable .key)

/-- The six bits that a character stands for in base 64. -/
def sextet? (c : Char) : Option Nat :=
  if 'A' ≤ c && c ≤ 'Z' then some (c.toNat - 0x41)
  else if 'a' ≤ c && c ≤ 'z' then some (c.toNat - 0x61 + 26)
  else if c.isDigit then some (c.toNat - 0x30 + 52)
  else if c = '+' then some 62
  else if c = '/' then some 63
  else none

/-- Bytes in base 64. `count` is the number of characters since the last full group of four, `left`
the bits that no byte has taken yet, and `pads` the padding since the last character. Other
characters are passed over, and padding that fills a group up ends the text. -/
def readBytesFrom (count left pads : Nat) (acc : List Nat) : List Char → Option (List Nat)
  | [] => if count = 0 then some acc.reverse else none
  | c :: cs =>
    if c = '=' then
      if 2 ≤ count then
        if 4 ≤ count + (pads + 1) then some acc.reverse
        else readBytesFrom count left (pads + 1) acc cs
      else readBytesFrom count left pads acc cs
    else match sextet? c with
      | none => readBytesFrom count left pads acc cs
      | some n =>
        if count = 0 then readBytesFrom 1 n 0 acc cs
        else if count = 1 then readBytesFrom 2 (n % 16) 0 ((left * 4 + n / 16) :: acc) cs
        else if count = 2 then readBytesFrom 3 (n % 4) 0 ((left * 16 + n / 4) :: acc) cs
        else readBytesFrom 0 0 0 ((left * 64 + n) :: acc) cs

/-- The bytes that a text denotes. -/
def readBytes (text : String) : Except Fault (List Nat) :=
  if text.toList.all fun c => c.toNat < 0x80 then
    match readBytesFrom 0 0 0 [] text.toList with
    | some data => .ok data
    | none => .error .malformedYaml
  else .error .malformedYaml

/-- The stamp that a text denotes. -/
def readStamp (text : String) : Except Fault Stamp :=
  match Stamp.read? text.toList with
  | none => .error (.unusable .attribute)
  | some (s, _) => if s.isValid then .ok s else .error (.unusable .value)

/-- The scalar that a text denotes by the rules of a tag. -/
def ofText (tag : Tag) (content : String) : Except Fault Scalar :=
  match tag with
  | .null => .ok .null
  | .bool => .bool <$> readBool content
  | .int => .int <$> readInteger content
  | .real => .real <$> readReal content
  | .bytes => .bytes <$> readBytes content
  | .stamp => .stamp <$> readStamp content
  | .text => .ok (.text content)
  | _ => .error .malformedYaml

/-! ## Comparing -/

/-- The integer that a scalar is equal to as a number. -/
def whole? : Scalar → Option Int
  | .bool b => some (if b then 1 else 0)
  | .int n => some n
  | .real x => Real.whole? x
  | _ => none

/-- Whether two scalars are the same key. -/
def same (a b : Scalar) : Bool :=
  match a, b with
  | .null, .null => true
  | .bytes x, .bytes y => x = y
  | .stamp x, .stamp y => x.same y
  | .text x, .text y => x = y
  | a, b =>
    match a.whole?, b.whole?, a, b with
    | some m, some n, _, _ => m = n
    | none, none, .real x, .real y => x == y || (x.isNaN && y.isNaN)
    | _, _, _, _ => false

/-! ## Using -/

/-- How a byte is shown between two `mark`s. -/
def quotedByte (mark : Char) (byte : Nat) : String :=
  if byte < 0x80 then Text.quotedChar mark (Char.ofNat byte)
  else "\\x" ++ Text.hexadecimal 2 byte

/-- A scalar as messages show it inside another value. -/
def quoted : Scalar → String
  | .null => "None"
  | .bool b => if b then "True" else "False"
  | .int n => toString n
  | .real x => Real.text x
  | .bytes data =>
    let mark := Text.quoteMark (data.map Char.ofNat)
    "b" ++ mark.toString ++ String.join (data.map (quotedByte mark)) ++ mark.toString
  | .stamp s => s.quoted
  | .text s => Text.quoted s

/-- A scalar as messages show it: a text and a stamp as they are, others as inside a list. -/
def shown : Scalar → String
  | .text s => s
  | .stamp s => s.text
  | s => s.quoted

/-- Whether a scalar counts as set: not nothing, false, zero or empty. -/
def isSet : Scalar → Bool
  | .null => false
  | .bool b => b
  | .int n => n != 0
  | .real x => x != 0.0
  | .bytes data => !data.isEmpty
  | .stamp _ => true
  | .text s => !s.isEmpty

/-- The integer that a scalar stands for. A real number loses its fraction. -/
def toInteger : Scalar → Except Fault Int
  | .bool b => .ok (if b then 1 else 0)
  | .int n => .ok n
  | .real x =>
    match Real.truncate? x with
    | some n => .ok n
    | none => .error (if x.isNaN then .notANumber else .infinite)
  | .bytes data =>
    if data.all (· < 0x80) then integerIn 10 (data.map Char.ofNat)
    else .error (.unusable .value)
  | .text s => integerIn 10 s.toList
  | .null | .stamp _ => .error (.unusable .kind)

end Scalar

end Retrace.Yaml
