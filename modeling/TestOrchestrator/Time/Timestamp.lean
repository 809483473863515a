import TestOrchestrator.Decimal.Layout
import TestOrchestrator.Decimal.Power
import TestOrchestrator.Text.Blank
/-!
# Timestamps

Moments in UTC by date and time of day, to the nanosecond, in the calendar extended to all years.

* `Timestamp.read? cs` reads a date, a time of day and an offset from UTC, as RFC 3339 writes them
  but more freely: fields need not be padded and blanks may stand between them.
* `Timestamp.render t` writes RFC 3339 in UTC with whole milliseconds, the rest dropped.

A leap second is the 59th second with a nanosecond count from `10 ^ 9` on.
-/

namespace TestOrchestrator

open Text

/-- A moment in UTC. -/
structure Timestamp where
  year : Int
  month : Nat
  day : Nat
  hour : Nat
  minute : Nat
  second : Nat
  nanos : Nat
  deriving DecidableEq

namespace Timestamp

/-! ## The calendar -/

/-- The leap years. -/
def isLeapYear (y : Int) : Bool := y % 4 = 0 && (y % 100 != 0 || y % 400 = 0)

/-- The number of days of a month. -/
def daysIn (y : Int) (month : Nat) : Nat :=
  if month = 2 then (if isLeapYear y then 29 else 28)
  else if month = 4 || month = 6 || month = 9 || month = 11 then 30
  else 31

/-- The years that a timestamp may have. -/
def isYear (y : Int) : Bool := -262143 ≤ y && y ≤ 262142

/-- A date of the calendar, in the years that a timestamp may have. -/
def isDate (y : Int) (month day : Nat) : Bool :=
  isYear y && 1 ≤ month && month ≤ 12 && 1 ≤ day && day ≤ daysIn y month

/-- The date of the day after. -/
def nextDay (y : Int) (month day : Nat) : Int × Nat × Nat :=
  if day < daysIn y month then (y, month, day + 1)
  else if month < 12 then (y, month + 1, 1)
  else (y + 1, 1, 1)

/-- The date of the day before. -/
def previousDay (y : Int) (month day : Nat) : Int × Nat × Nat :=
  if 1 < day then (y, month, day - 1)
  else if 1 < month then (y, month - 1, daysIn y (month - 1))
  else (y - 1, 12, 31)

/-- The moment at a date and a minute of that day, where the clock is `offset` minutes ahead of UTC.
The offset is shorter than a day. -/
def ofLocal? (y : Int) (month day minutes : Nat) (offset : Int) (second nanos : Nat) :
    Option Timestamp :=
  let utc : Int := (minutes : Int) - offset
  let (y, month, day) :=
    if utc < 0 then previousDay y month day
    else if 1440 ≤ utc then nextDay y month day
    else (y, month, day)
  let m := (utc % 1440).toNat
  if isYear y then some ⟨y, month, day, m / 60, m % 60, second, nanos⟩ else none

/-! ## Reading -/

/-- The digits at the start of a text, at most `width` of them. -/
def leadingDigits : Nat → List Char → List Char
  | width + 1, c :: cs => if c.isDigit then c :: leadingDigits width cs else []
  | _, _ => []

/-- The number that digits stand for. -/
def ofDigits (ds : List Char) : Nat := ds.foldl (fun n d => n * 10 + (d.toNat - 48)) 0

/-- A number of one to `width` digits after any blanks. -/
def number? (width : Nat) (cs : List Char) : Option (Nat × List Char) :=
  let cs := cs.dropWhile isBlank
  match leadingDigits width cs with
  | [] => none
  | ds => some (ofDigits ds, cs.drop ds.length)

/-- A year: with a sign any number of digits, without one at most four. -/
def year? (cs : List Char) : Option (Int × List Char) :=
  match cs.dropWhile isBlank with
  | '-' :: rest => signed rest (-1)
  | '+' :: rest => signed rest 1
  | rest => (number? 4 rest).map fun (n, rest) => ((n : Int), rest)
where
  signed (rest : List Char) (sign : Int) : Option (Int × List Char) :=
    match leadingDigits rest.length rest with
    | [] => none
    | ds => some (sign * (ofDigits ds : Int), rest.drop ds.length)

/-- The character `c` after any blanks. -/
def mark? (c : Char) (cs : List Char) : Option (List Char) :=
  match cs.dropWhile isBlank with
  | d :: rest => if d = c then some rest else none
  | [] => none

/-- The part after the decimal point in nanoseconds; digits after the ninth are dropped. -/
def fraction? : List Char → Option (Nat × List Char)
  | '.' :: cs =>
    match leadingDigits 9 cs with
    | [] => none
    | ds => some (ofDigits ds * Decimal.tens (9 - ds.length), cs.dropWhile Char.isDigit)
  | cs => some (0, cs)

/-- The minutes of a text of hours and minutes, each of two digits, with colons or blanks
between. -/
def hoursMinutes? : List Char → Option (Nat × List Char)
  | a :: b :: rest =>
    if a.isDigit && b.isDigit then
      match rest.dropWhile fun c => c = ':' || isBlank c with
      | c :: d :: rest =>
        if c.isDigit && d.isDigit && c.toNat < 54 then
          some (ofDigits [a, b] * 60 + ofDigits [c, d], rest)
        else none
      | _ => none
    else none
  | _ => none

/-- An offset from UTC in minutes: `Z`, `UTC`, or a sign, hours and minutes. -/
def offset? (cs : List Char) : Option (Int × List Char) :=
  match cs.dropWhile isBlank with
  | '+' :: rest => (hoursMinutes? rest).map fun (m, rest) => ((m : Int), rest)
  | c :: rest =>
    if c = '-' || c = '−' then (hoursMinutes? rest).map fun (m, rest) => (-(m : Int), rest)
    else if c = 'Z' || c = 'z' then some (0, rest)
    else
      match c :: rest with
      | u :: t :: z :: rest =>
        if u.toLower = 'u' && t.toLower = 't' && z.toLower = 'c' then some (0, rest) else none
      | _ => none
  | [] => none

/-- The moment that a text stands for. -/
def read? (cs : List Char) : Option Timestamp := do
  let (year, cs) ← year? cs
  let cs ← mark? '-' cs
  let (month, cs) ← number? 2 cs
  let cs ← mark? '-' cs
  let (day, cs) ← number? 2 cs
  let cs ←
    match cs with
    | c :: cs => if c = 'T' || c = 't' || c = ' ' then some cs else none
    | [] => none
  let (hour, cs) ← number? 2 cs
  let cs ← mark? ':' cs
  let (minute, cs) ← number? 2 cs
  let cs ← mark? ':' cs
  let (second, cs) ← number? 2 cs
  let (nanos, cs) ← fraction? cs
  let (offset, cs) ← offset? cs
  if isDate year month day && hour < 24 && minute < 60 && second ≤ 60 && offset.natAbs < 1440
      && cs.all isBlank then
    let (second, nanos) := if second = 60 then (59, nanos + 1000000000) else (second, nanos)
    ofLocal? year month day (hour * 60 + minute) offset second nanos
  else none

/-! ## Writing -/

/-- A number with zeros before it up to `width` digits. -/
def padded (width n : Nat) : List Char :=
  let ds := Decimal.digitsOf n
  List.replicate (width - ds.length) '0' ++ ds

/-- A year: four digits, and a sign when four digits do not hold it. -/
def yearText (y : Int) : List Char :=
  if 0 ≤ y ∧ y ≤ 9999 then padded 4 y.toNat
  else (if y < 0 then '-' else '+') :: padded 4 y.natAbs

/-- The text of a moment, in whole milliseconds. -/
def render (t : Timestamp) : String :=
  let leap := 1000000000 ≤ t.nanos
  let second := if leap then t.second + 1 else t.second
  let nanos := if leap then t.nanos - 1000000000 else t.nanos
  String.ofList (yearText t.year ++ '-' :: padded 2 t.month ++ '-' :: padded 2 t.day ++ 'T' ::
    padded 2 t.hour ++ ':' :: padded 2 t.minute ++ ':' :: padded 2 second ++ '.' ::
    padded 3 (nanos / 1000000) ++ ['Z'])

/-- The moment with only its whole milliseconds. -/
def toMillis (t : Timestamp) : Timestamp := { t with nanos := t.nanos / 1000000 * 1000000 }

end Timestamp

end TestOrchestrator
