import Retrace.Text.Integer
import Retrace.Yaml.Cursor

/-!
# Points in time

A stamp is a day of the calendar, or a day with a time of day and perhaps the distance of its clock
from universal time. It is written as `2001-12-14` or `2001-12-14 21:59:43.10 -5:30`. Two stamps
with a known distance are the same if they name the same instant.
-/

namespace Retrace.Yaml

/-- A day of the calendar. -/
structure Date where
  year : Nat
  month : Nat
  day : Nat
deriving DecidableEq, Repr, Inhabited

/-- A time of day. -/
structure Clock where
  hour : Nat
  minute : Nat
  second : Nat
  micro : Nat
  /-- how many minutes the clock is ahead of universal time, if that is known -/
  ahead : Option Int
deriving DecidableEq, Repr, Inhabited

/-- A day, or a point in time on it. -/
structure Stamp where
  date : Date
  clock : Option Clock
deriving DecidableEq, Repr, Inhabited

/-! ## The calendar -/

namespace Date

/-- Whether a year has a leap day. -/
def isLeap (year : Nat) : Bool := year % 4 = 0 && (year % 100 ≠ 0 || year % 400 = 0)

/-- The number of days of a month. -/
def monthLength (year month : Nat) : Nat :=
  if month = 2 then if isLeap year then 29 else 28
  else if month ∈ [4, 6, 9, 11] then 30
  else 31

/-- Whether the calendar has the day. -/
def isValid (d : Date) : Bool :=
  1 ≤ d.year && 1 ≤ d.month && d.month ≤ 12 && 1 ≤ d.day && d.day ≤ monthLength d.year d.month

/-- The number of the day, counted from the first day of the year 1. -/
def number (d : Date) : Nat :=
  let past := d.year - 1
  let months := (List.range (d.month - 1)).map fun m => monthLength d.year (m + 1)
  365 * past + past / 4 - past / 100 + past / 400 + months.foldl (· + ·) 0 + d.day

end Date

namespace Stamp

/-- A day and a clock have to be on the calendar and on the dial, and no clock is a day or more away
from universal time. -/
def isValid (s : Stamp) : Bool :=
  s.date.isValid && match s.clock with
    | none => true
    | some c =>
      c.hour < 24 && c.minute < 60 && c.second < 60 && c.ahead.all fun m => m.natAbs < 24 * 60

/-- The microseconds from the start of the year 1 to a point in time, as its own clock has it. -/
def reading (date : Date) (c : Clock) : Int :=
  ((((date.number * 24 + c.hour) * 60 + c.minute) * 60 + c.second) * 1000000 + c.micro : Nat)

/-- Whether two stamps stand for the same. -/
def same (a b : Stamp) : Bool :=
  match a.clock, b.clock with
  | none, none => a.date = b.date
  | some c, some d =>
    match c.ahead, d.ahead with
    | none, none => reading a.date c = reading b.date d
    | some m, some n =>
      reading a.date c - m * 60000000 = reading b.date d - n * 60000000
    | _, _ => false
  | _, _ => false

/-! ## Writing -/

/-- A number with at least `width` digits. -/
def padded (width n : Nat) : String :=
  let digits := toString n
  String.ofList (List.replicate (width - digits.length) '0') ++ digits

/-- A stamp as a text. -/
def text (s : Stamp) : String :=
  let d := s.date
  let day := padded 4 d.year ++ "-" ++ padded 2 d.month ++ "-" ++ padded 2 d.day
  match s.clock with
  | none => day
  | some c =>
    let micro := if c.micro = 0 then "" else "." ++ padded 6 c.micro
    let zone := match c.ahead with
      | none => ""
      | some m =>
        (if m < 0 then "-" else "+") ++ padded 2 (m.natAbs / 60) ++ ":" ++ padded 2 (m.natAbs % 60)
    let time := padded 2 c.hour ++ ":" ++ padded 2 c.minute ++ ":" ++ padded 2 c.second
    day ++ " " ++ time ++ micro ++ zone

/-- The distance from universal time, as messages show it inside another value. -/
def quotedZone (m : Int) : String :=
  if m = 0 then "datetime.timezone.utc"
  else
    let days := if m < 0 then ["days=-1"] else []
    let seconds := (if m < 0 then m + 24 * 60 else m) * 60
    let rest := if seconds = 0 then [] else ["seconds=" ++ toString seconds]
    "datetime.timezone(datetime.timedelta(" ++ ", ".intercalate (days ++ rest) ++ "))"

/-- A stamp as messages show it inside another value. -/
def quoted (s : Stamp) : String :=
  let numbers (ns : List Nat) : List String := ns.map toString
  let day := numbers [s.date.year, s.date.month, s.date.day]
  match s.clock with
  | none => "datetime.date(" ++ ", ".intercalate day ++ ")"
  | some c =>
    let fine := if c.micro ≠ 0 then [c.second, c.micro] else if c.second ≠ 0 then [c.second] else []
    let zone := (c.ahead.map fun m => "tzinfo=" ++ quotedZone m).toList
    let parts := day ++ numbers ([c.hour, c.minute] ++ fine) ++ zone
    "datetime.datetime(" ++ ", ".intercalate parts ++ ")"

/-! ## Reading -/

/-- At least `least` and at most `most` digits: their value, their number and what follows. -/
def readDigits (least most : Nat) (cs : List Char) : Option (Nat × Nat × List Char) :=
  let digits := (cs.take most).takeWhile Char.isDigit
  if digits.length < least then none
  else some (Text.digitsValue digits, digits.length, cs.drop digits.length)

/-- What follows the character `c`. -/
def readMark (c : Char) : List Char → Option (List Char)
  | [] => none
  | x :: cs => if x = c then some cs else none

/-- The distance from universal time in minutes, if one is written. -/
def readZone (cs : List Char) : Option (Option Int × List Char) :=
  match cs.dropWhile isSpace with
  | 'Z' :: rest => some (some 0, rest)
  | sign :: rest =>
    if sign = '+' || sign = '-' then do
      let (hours, _, rest) ← readDigits 1 2 rest
      let (minutes, rest) ← match rest with
        | ':' :: after => (readDigits 2 2 after).map fun (n, _, rest) => (n, rest)
        | _ => some (0, rest)
      let size : Int := (60 * hours + minutes : Nat)
      return (some (if sign = '-' then -size else size), rest)
    else some (none, cs)
  | [] => some (none, cs)

/-- The microseconds that the digits of a fraction stand for; what is finer does not count. -/
def microOf (digits : List Char) : Nat :=
  Text.digitsValue (digits.take 6 ++ List.replicate (6 - digits.length) '0')

/-- A time of day after a day: a letter or blanks, hours, minutes, seconds. -/
def readClock (cs : List Char) : Option (Clock × List Char) := do
  let cs ← match cs with
    | c :: rest =>
      if c = 'T' || c = 't' then some rest
      else if isSpace c then some (rest.dropWhile isSpace)
      else none
    | [] => none
  let (hour, _, cs) ← readDigits 1 2 cs
  let (minute, _, cs) ← readDigits 2 2 (← readMark ':' cs)
  let (second, _, cs) ← readDigits 2 2 (← readMark ':' cs)
  let (fraction, cs) := match cs with
    | '.' :: rest => (rest.takeWhile Char.isDigit, rest.dropWhile Char.isDigit)
    | _ => ([], cs)
  let (ahead, cs) ← readZone cs
  return ({ hour, minute, second, micro := microOf fraction, ahead }, cs)

/-- Whether nothing but one line break is left. -/
def atEnd (cs : List Char) : Bool := cs = [] || cs = ['\n']

/-- The stamp that characters write down, and whether it needs no mark to be taken for one: it then
has a time of day, or two digits for the month and for the day. -/
def read? (cs : List Char) : Option (Stamp × Bool) := do
  let (year, _, cs) ← readDigits 4 4 cs
  let (month, monthDigits, cs) ← readDigits 1 2 (← readMark '-' cs)
  let (day, dayDigits, cs) ← readDigits 1 2 (← readMark '-' cs)
  if atEnd cs then
    return (⟨⟨year, month, day⟩, none⟩, monthDigits = 2 && dayDigits = 2)
  let (clock, cs) ← readClock cs
  if atEnd cs then return (⟨⟨year, month, day⟩, some clock⟩, true) else none

end Stamp

end Retrace.Yaml
