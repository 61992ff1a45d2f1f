import Retrace.Text.Alphabetic
import Retrace.Text.Numeric
import Retrace.Text.Unprintable

/-!
# Character classes

Which characters may start or continue a name or a number in source text, which count as blank
around a value given in text, and which a quoted text shows as themselves. Below U+0080 each class
is tested directly; above, it is a list of ranges.

* `isDigit` is wider than "has a decimal value": `²` is a digit, and `decimalValue?` gives it no
  value. A number in source text may therefore be read and still have no value.
* `isWordChar` holds of every letter and every digit, and of other numerals such as `½`.

An escape can name one half of a surrogate pair, which is no character. Such a half is kept as a
private character, and is written as the escape again.
-/

namespace Retrace.Text

/-- Whether `n` lies in one of the closed `ranges`. -/
def inRanges (ranges : Array (Nat × Nat)) (n : Nat) : Bool :=
  ranges.any fun range => range.1 ≤ n && n ≤ range.2

/-- The characters of alphabets, syllabaries and ideographic scripts. -/
def isLetter (c : Char) : Bool :=
  if c.toNat < 0x80 then c.isAlpha else inRanges letterRanges c.toNat

/-- The value of a decimal digit of any script. -/
def decimalValue? (c : Char) : Option Nat :=
  if c.toNat < 0x80 then
    if c.isDigit then some (c.toNat - 0x30) else none
  else
    (decimalRanges.find? fun range => range.1 ≤ c.toNat && c.toNat ≤ range.2).map
      fun range => (c.toNat - range.1) % 10

/-- Digits of any kind: decimal digits, and marks such as superscripts that denote one digit. -/
def isDigit (c : Char) : Bool :=
  if c.toNat < 0x80 then c.isDigit
  else inRanges decimalRanges c.toNat || inRanges otherDigitRanges c.toNat

/-- Letters, digits and other numerals: what may continue a name, besides the underscore. -/
def isWordChar (c : Char) : Bool :=
  isLetter c || isDigit c || (0x80 ≤ c.toNat && inRanges otherNumeralRanges c.toNat)

/-- The characters that are dropped around a value given as text. -/
def isBlank (c : Char) : Bool :=
  let n := c.toNat
  (0x09 ≤ n && n ≤ 0x0D) || (0x1C ≤ n && n ≤ 0x20) || n = 0x85 || n = 0xA0 || n = 0x1680 ||
    (0x2000 ≤ n && n ≤ 0x200A) || n = 0x2028 || n = 0x2029 || n = 0x202F || n = 0x205F || n = 0x3000

/-- The character with a code. Half of a surrogate pair is a private character. -/
def ofCode (n : Nat) : Char :=
  if 0xD800 ≤ n && n < 0xE000 then Char.ofNat (0x100000 + n) else Char.ofNat n

/-- The half of a surrogate pair that a character stands for. -/
def surrogate? (c : Char) : Option Nat :=
  if 0x10D800 ≤ c.toNat && c.toNat < 0x10E000 then some (c.toNat - 0x100000) else none

/-- The characters that a quoted text shows as themselves. -/
def isPrintable (c : Char) : Bool :=
  let n := c.toNat
  if n < 0x80 then 0x20 ≤ n && n < 0x7F else !inRanges unprintableRanges n

/-- Characters without those at both ends that are `blank`. -/
def trim (blank : Char → Bool) (cs : List Char) : List Char :=
  ((cs.dropWhile blank).reverse.dropWhile blank).reverse

/-- `text` without the blanks at both ends. -/
def strip (text : String) : String := String.ofList (trim isBlank text.toList)

end Retrace.Text
