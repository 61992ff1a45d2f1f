import Retrace.Text.Integer

/-!
# The text of a floating point number

A finite number is written with the fewest decimal digits that read back as the same number, and
of those the nearest. `Real.shortest` finds the digits in exact integer arithmetic: it decodes the
number into `m * 2 ^ q`, takes the interval of the reals that round to it, and tries the decimal
grids of 1, 2, ... 17 digits. `Real.text` lays the digits out. `Real.read?` goes the other way: the
number nearest to what a text denotes.
-/

namespace Retrace.Real

/-- The parts of a finite number `± m * 2 ^ q`; `narrow` says that the next smaller number is only
half as far away as the next larger one. -/
structure Binary where
  negative : Bool
  m : Nat
  q : Int
  narrow : Bool

/-- The parts of a finite number; infinities and the values that are no numbers have none. -/
def decode? (x : Float) : Option Binary :=
  let bits := x.toBits.toNat
  let fraction : Nat := bits % Nat.pow 2 52
  let exponent : Nat := bits / Nat.pow 2 52 % Nat.pow 2 11
  let negative := bits / Nat.pow 2 63 == 1
  if exponent = 2047 then none
  else if exponent = 0 then some ⟨negative, fraction, -1074, false⟩
  else
    let narrow : Bool := fraction = 0 && 1 < exponent
    some ⟨negative, fraction + Nat.pow 2 52, (exponent : Int) - 1075, narrow⟩

/-- The integer part of a finite number. -/
def truncate? (x : Float) : Option Int :=
  (decode? x).map fun b =>
    let size : Nat := if 0 ≤ b.q then b.m * Nat.pow 2 b.q.toNat else b.m / Nat.pow 2 (-b.q).toNat
    if b.negative then -Int.ofNat size else Int.ofNat size

/-- The integer that a number is, if it is one. -/
def whole? (x : Float) : Option Int := do
  let b ← decode? x
  if 0 ≤ b.q || b.m % Nat.pow 2 (-b.q).toNat = 0 then truncate? x else none

/-- `n` and `d` such that `n / d = a * 10 ^ e`. -/
def scaled (a : Nat) (e : Int) : Nat × Nat :=
  if 0 ≤ e then (a * Nat.pow 10 e.toNat, 1) else (a, Nat.pow 10 (-e).toNat)

/-- Looks for the number on the grids of `count`, `count + 1`, ... digits, `fuel` grids in all. The
number is `value / den`, the reals that round to it lie between `low / den` and `high / den`, and
its first digit has weight `10 ^ top`. The answer is an integer and the weight of its last
digit. -/
def search (value low high den : Nat) (closed : Bool) (top : Int) : Nat → Nat → Nat × Int
  | 0, count => (value, top - count)
  | fuel + 1, count =>
    let unit : Int := top - (count - 1 : Nat)
    let step := scaled 1 unit
    let below := value * step.2 / (den * step.1)
    let inside (d : Nat) : Bool :=
      let point := d * step.1 * den
      if closed then low * step.2 ≤ point && point ≤ high * step.2
      else low * step.2 < point && point < high * step.2
    let gapBelow := value * step.2 - below * step.1 * den
    let gapAbove := (below + 1) * step.1 * den - value * step.2
    if inside below && (!inside (below + 1) || gapBelow < gapAbove ||
        (gapBelow = gapAbove && below % 2 = 0)) then (below, unit)
    else if inside (below + 1) then (below + 1, unit)
    else search value low high den closed top fuel (count + 1)

/-- The weight of the first digit of `value / den`: the largest `e` with `10 ^ e ≤ value / den`,
found by counting down from `start`. -/
def topWeight (value den : Nat) : Nat → Int → Int
  | 0, start => start
  | fuel + 1, start =>
    let power := scaled 1 start
    if power.1 * den ≤ value * power.2 then start else topWeight value den fuel (start - 1)

/-- The fewest digits that denote `m * 2 ^ q`, as an integer and the weight of its last digit. -/
def shortest (b : Binary) : Nat × Int :=
  let e := b.q - 2
  let up : Nat := if 0 ≤ e then Nat.pow 2 e.toNat else 1
  let den : Nat := if 0 ≤ e then 1 else Nat.pow 2 (-e).toNat
  let value := 4 * b.m * up
  let low := (4 * b.m - if b.narrow then 1 else 2) * up
  let high := (4 * b.m + 2) * up
  let top := topWeight value den 700 310
  search value low high den (b.m % 2 = 0) top 17 1

/-- Digits without the zeros at the end, and the weight of the last one left. -/
def dropZeros : Nat → Nat → Int → Nat × Int
  | 0, digits, weight => (digits, weight)
  | fuel + 1, digits, weight =>
    if digits % 10 = 0 && digits ≠ 0 then dropZeros fuel (digits / 10) (weight + 1)
    else (digits, weight)

/-- Lays digits out: positional from `10 ^ -4` up to below `10 ^ 16`, with a point and at least one
place after it; otherwise one digit before the point and an exponent of at least two digits. -/
def layOut (digits : Nat) (weight : Int) : String :=
  let text := (toString digits).toList
  let top : Int := weight + (text.length - 1 : Nat)
  if -4 ≤ top && top < 16 then
    if 0 ≤ weight then
      String.ofList (text ++ List.replicate weight.toNat '0') ++ ".0"
    else if 0 ≤ top then
      let whole := text.length - (-weight).toNat
      String.ofList (text.take whole) ++ "." ++ String.ofList (text.drop whole)
    else
      "0." ++ String.ofList (List.replicate (-top - 1).toNat '0' ++ text)
  else
    let mantissa := match text with
      | c :: [] => c.toString
      | c :: cs => c.toString ++ "." ++ String.ofList cs
      | [] => ""
    let size := toString top.natAbs
    let padded := if size.length < 2 then "0" ++ size else size
    mantissa ++ "e" ++ (if top < 0 then "-" else "+") ++ padded

/-- The text of a floating point number. -/
def text (x : Float) : String :=
  match decode? x with
  | none => if x.isNaN then "nan" else if x < 0.0 then "-inf" else "inf"
  | some b =>
    let sign := if b.negative then "-" else ""
    if b.m = 0 then sign ++ "0.0"
    else
      let (digits, weight) := shortest b
      let (digits, weight) := dropZeros 400 digits weight
      sign ++ layOut digits weight

/-! ## Reading -/

/-- The number nearest to `digits * 10 ^ weight`. Numbers far beyond the largest and far below the
smallest one are settled without writing them out. -/
def ofDecimal (digits : Nat) (weight : Int) : Float :=
  let top : Int := weight + (toString digits).length
  if digits = 0 || top < -400 then 0.0
  else if 400 < top then 1.0 / 0.0
  else Float.ofScientific digits (weight < 0) weight.natAbs

/-- The values of the decimal digits at the start of a text, and the rest of it. -/
def leadingDigits : List Char → List Nat × List Char
  | [] => ([], [])
  | c :: cs =>
    match Text.decimalValue? c with
    | some n => let (digits, rest) := leadingDigits cs; (n :: digits, rest)
    | none => ([], c :: cs)

/-- The number that digits write down. -/
def digitsNumber (digits : List Nat) : Nat := digits.foldl (fun n d => 10 * n + d) 0

/-- An exponent that ends a number. -/
def readExponent? : List Char → Option Int
  | [] => some 0
  | mark :: cs =>
    let (sign, cs) := match cs with
      | '-' :: rest => (-1, rest)
      | '+' :: rest => (1, rest)
      | _ => ((1 : Int), cs)
    match leadingDigits cs with
    | (digit :: digits, []) =>
      if mark = 'e' || mark = 'E' then some (sign * digitsNumber (digit :: digits)) else none
    | _ => none

/-- The number that a text without a sign denotes. -/
def readSize? (cs : List Char) : Option Float :=
  let word := cs.map Char.toLower
  if word = "inf".toList || word = "infinity".toList then some (1.0 / 0.0)
  else if word = "nan".toList then some (0.0 / 0.0)
  else
    let (whole, rest) := leadingDigits cs
    let (fraction, rest) := match rest with
      | '.' :: cs => leadingDigits cs
      | _ => ([], rest)
    if whole.isEmpty && fraction.isEmpty then none
    else (readExponent? rest).map fun exponent =>
      ofDecimal (digitsNumber (whole ++ fraction)) (exponent - fraction.length)

/-- The number that a text denotes: an optional sign, digits with or without a point among them, an
optional exponent; or the name of an infinity or of what is no number. -/
def read? (text : String) : Option Float :=
  match Text.trim Text.isMargin text.toList with
  | '+' :: cs => readSize? cs
  | '-' :: cs => (readSize? cs).map fun x => -x
  | cs => readSize? cs

end Retrace.Real
