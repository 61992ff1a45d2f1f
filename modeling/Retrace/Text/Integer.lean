import Retrace.Text.CharClass

/-!
# Integers written as text

An integer is an optional sign and digits, with at most one underscore between two digits, and
blanks around it, which do not include the information separators U+001C to U+001F. A decimal digit
may be of any script. In base 2, 8 or 16 the letter of the base may stand in front of the digits,
after a zero. `readInteger?` accepts exactly the decimal integers.
-/

namespace Retrace.Text

/-- The value of a digit in base `radix`: a decimal digit of any script or a Latin letter. -/
def digitValue? (radix : Nat) (c : Char) : Option Nat :=
  let value := match decimalValue? c with
    | some n => some n
    | none =>
      if 'a' ≤ c && c ≤ 'z' then some (c.toNat - 0x61 + 10)
      else if 'A' ≤ c && c ≤ 'Z' then some (c.toNat - 0x41 + 10)
      else none
  value.filter fun n => n < radix

/-- The rest of a number after some digits of value `acc`: digits, each of which may follow one
underscore. -/
def readMoreDigits (radix acc : Nat) : List Char → Option Nat
  | [] => some acc
  | '_' :: c :: cs => do readMoreDigits radix (radix * acc + (← digitValue? radix c)) cs
  | c :: cs => do readMoreDigits radix (radix * acc + (← digitValue? radix c)) cs

/-- The value of a non-empty sequence of digits. -/
def readDigitsIn? (radix : Nat) : List Char → Option Nat
  | [] => none
  | c :: cs => do readMoreDigits radix (← digitValue? radix c) cs

/-- The value of a non-empty sequence of decimal digits. -/
def readDigits? (cs : List Char) : Option Nat := readDigitsIn? 10 cs

/-- The value of a sequence of ASCII digits. -/
def digitsValue (cs : List Char) : Nat := cs.foldl (fun n c => 10 * n + (c.toNat - 0x30)) 0

/-- The blanks that may stand around a number. -/
def isMargin (c : Char) : Bool := isBlank c && !(0x1C ≤ c.toNat && c.toNat ≤ 0x1F)

/-- The letters that mark a base. -/
def radixMarks : Nat → List Char
  | 2 => ['b', 'B']
  | 8 => ['o', 'O']
  | 16 => ['x', 'X']
  | _ => []

/-- Digits without the mark of their base. An underscore may follow the mark. -/
def afterMark (radix : Nat) : List Char → List Char
  | '0' :: mark :: cs =>
    if mark ∈ radixMarks radix then
      match cs with
      | '_' :: digits => digits
      | digits => digits
    else '0' :: mark :: cs
  | cs => cs

/-- The integer that `text` denotes in base `radix`. -/
def readIntegerIn? (radix : Nat) (text : String) : Option Int :=
  match trim isMargin text.toList with
  | '+' :: cs => (readDigitsIn? radix (afterMark radix cs)).map Int.ofNat
  | '-' :: cs => (readDigitsIn? radix (afterMark radix cs)).map fun n => -Int.ofNat n
  | cs => (readDigitsIn? radix (afterMark radix cs)).map Int.ofNat

/-- The integer that `text` denotes. -/
def readInteger? (text : String) : Option Int := readIntegerIn? 10 text

end Retrace.Text
