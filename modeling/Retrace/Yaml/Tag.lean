import Retrace.Yaml.Stamp

/-!
# Tags

What kind of value a node stands for. A tag can be written out; a plain word without one gets its
tag from its form. `Tag.ofWord` says which words are numbers, truth values, stamps and so on.
-/

namespace Retrace.Yaml

/-- What a node stands for. -/
inductive Tag where
  | null
  | bool
  | int
  | real
  | bytes
  | stamp
  | text
  | list
  /-- a list of pairs -/
  | pairs
  | set
  | record
  /-- a key whose value is merged into the record -/
  | merge
  /-- a key whose value stands for the whole record where a text is asked for -/
  | standIn
  | unknown
deriving DecidableEq, Repr, Inhabited

/-! ## Numbers by their form -/

/-- What follows an optional sign. -/
def afterSign : List Char → List Char
  | c :: cs => if c = '+' || c = '-' then cs else c :: cs
  | [] => []

/-- Whether a character is a digit or an underscore. -/
def isDigitOrLine (c : Char) : Bool := c.isDigit || c = '_'

/-- What follows one or more sexagesimal places: a colon and a number below sixty. -/
def afterPlaces? : List Char → Option (List Char)
  | ':' :: a :: b :: cs =>
    if '0' ≤ a && a ≤ '5' && b.isDigit then some ((afterPlaces? cs).getD cs)
    else if a.isDigit then some ((afterPlaces? (b :: cs)).getD (b :: cs))
    else none
  | [':', a] => if a.isDigit then some [] else none
  | _ => none

/-- Whether characters are empty or an exponent with a sign. -/
def isExponent : List Char → Bool
  | [] => true
  | e :: sign :: digits =>
    (e = 'e' || e = 'E') && (sign = '+' || sign = '-') && !digits.isEmpty && digits.all Char.isDigit
  | _ => false

/-- Whether a word has the form of a binary, octal, decimal, hexadecimal or sexagesimal integer. -/
def isInteger (word : List Char) : Bool :=
  match afterSign word with
  | ['0'] => true
  | '0' :: 'b' :: digits => !digits.isEmpty && digits.all fun c => c = '0' || c = '1' || c = '_'
  | '0' :: 'x' :: digits =>
    !digits.isEmpty && digits.all fun c => isDigitOrLine c || ('a' ≤ c && c ≤ 'f') ||
      ('A' ≤ c && c ≤ 'F')
  | '0' :: digits => digits.all fun c => ('0' ≤ c && c ≤ '7') || c = '_'
  | c :: cs =>
    let rest := cs.dropWhile isDigitOrLine
    c.isDigit && (rest.isEmpty || afterPlaces? rest = some [])
  | [] => false

/-- Whether a word has the form of a number with a point, decimal or sexagesimal, or names an
infinity or what is no number. -/
def isReal (word : List Char) : Bool :=
  let name := String.ofList word
  let size := afterSign word
  name ∈ [".nan", ".NaN", ".NAN"] || String.ofList size ∈ [".inf", ".Inf", ".INF"] ||
    match word with
    | '.' :: c :: cs => c.isDigit && isExponent (cs.dropWhile isDigitOrLine)
    | _ =>
      match size with
      | c :: cs =>
        c.isDigit &&
          match cs.dropWhile isDigitOrLine with
          | '.' :: rest => isExponent (rest.dropWhile isDigitOrLine)
          | rest =>
            match afterPlaces? rest with
            | some ('.' :: places) => places.all isDigitOrLine
            | _ => false
      | [] => false

/-! ## Tags of words and tags by name -/

namespace Tag

/-- The words for truth values. -/
def boolWords : List String :=
  ["yes", "Yes", "YES", "no", "No", "NO", "true", "True", "TRUE", "false", "False", "FALSE", "on",
    "On", "ON", "off", "Off", "OFF"]

/-- A word without a line break at its end. -/
def unbroken (cs : List Char) : List Char :=
  if 1 < cs.length && cs.getLast? = some '\n' then cs.dropLast else cs

/-- The tag of a plain word, by its form. -/
def ofWord (word : String) : Tag :=
  let cs := unbroken word.toList
  let word := String.ofList cs
  if word ∈ boolWords then .bool
  else if isReal cs then .real
  else if isInteger cs then .int
  else if word = "<<" then .merge
  else if word ∈ ["", "~", "null", "Null", "NULL"] then .null
  else if ((Stamp.read? cs).map Prod.snd).getD false then .stamp
  else if word = "=" then .standIn
  else .text

/-- What the names of the common tags begin with. -/
def common : String := "tag:yaml.org,2002:"

/-- The common tags and the ends of their names. -/
def names : List (String × Tag) :=
  [("null", .null), ("bool", .bool), ("int", .int), ("float", .real), ("binary", .bytes),
    ("timestamp", .stamp), ("str", .text), ("seq", .list), ("omap", .pairs), ("pairs", .pairs),
    ("set", .set), ("map", .record), ("merge", .merge), ("value", .standIn)]

/-- The tag of a name. -/
def ofName (name : String) : Tag :=
  ((names.find? fun entry => common ++ entry.1 = name).map Prod.snd).getD .unknown

end Tag

end Retrace.Yaml
