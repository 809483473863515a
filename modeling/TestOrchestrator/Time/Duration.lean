import TestOrchestrator.Decimal.Layout
import TestOrchestrator.Decimal.Power
/-!
# Durations

A length of time in whole nanoseconds, below `2 ^ 64` seconds.

* `add? d e` is the sum when it is a duration again (`add?_eq_some_iff`); `add` is for sums that are
  one, and stays at the longest duration where the program would end with an overflow.
* `ofSeconds? x` rounds a number of seconds to the nearest nanosecond, a half going to the even one;
  negative numbers and numbers from `2 ^ 64` on are no durations.
* `toSeconds d` is the double that stands for `d`: the seconds and the rest, each rounded, added and
  rounded again.
-/

namespace TestOrchestrator

open Decimal

/-- A length of time. -/
structure Duration where
  nanos : Nat
  lt : nanos < wordLimit * 1000000000
  deriving DecidableEq

namespace Duration

/-- The nanoseconds of a second. -/
def perSecond : Nat := 1000000000

/-- The length above every duration, in nanoseconds. -/
def limit : Nat := wordLimit * perSecond

/-- The duration of `n` nanoseconds, if there is one. -/
def ofNanos? (n : Nat) : Option Duration :=
  if h : n < wordLimit * 1000000000 then some ⟨n, h⟩ else none

def zero : Duration := ⟨0, by decide⟩

/-- The longest duration. -/
def longest : Duration := ⟨wordLimit * 1000000000 - 1, by decide⟩

/-- One millisecond. -/
def millisecond : Duration := ⟨1000000, by decide⟩

def isZero (d : Duration) : Bool := d.nanos = 0

/-- The sum, if it is below the limit. -/
def add? (d e : Duration) : Option Duration := ofNanos? (d.nanos + e.nanos)

/-- The sum. A longer one than the longest duration is an overflow, which would end the program; the
longest duration stands for it here. -/
def add (d e : Duration) : Duration := (d.add? e).getD longest

theorem ofNanos?_eq_some_iff {n : Nat} {d : Duration} : ofNanos? n = some d ↔ d.nanos = n := by
  unfold ofNanos?
  split
  · constructor
    · rintro h
      cases h
      rfl
    · rintro rfl
      rfl
  · rename_i h
    constructor
    · intro h'
      cases h'
    · rintro rfl
      exact absurd d.lt h

theorem add?_eq_some_iff {d e s : Duration} : d.add? e = some s ↔ s.nanos = d.nanos + e.nanos :=
  ofNanos?_eq_some_iff

/-- Whole milliseconds, the rest dropped. -/
def wholeMillis (d : Duration) : Nat := d.nanos / 1000000

/-- The duration nearest to a number of seconds. -/
def ofSeconds? : Binary64 → Option Duration
  | .finite neg m e =>
    if neg && m != 0 then none
    else
      let (num, den) := Binary64.ratio m e
      if wordLimit * den ≤ num then none
      else ofNanos? (roundDivEven (num * perSecond) den)
  | .infinite _ => none
  | .nan => none

/-- The number of seconds as a double. -/
def toSeconds (d : Duration) : Binary64 :=
  (Binary64.ofRatio false (d.nanos / perSecond) 1).add
    ((Binary64.ofRatio false (d.nanos % perSecond) 1).div (Binary64.ofRatio false perSecond 1))

/-- The seconds with three places, as reports in markup write them. -/
def threePlaces (d : Duration) : String :=
  match d.toSeconds with
  | .finite _ m e =>
    let (num, den) := Binary64.ratio m e
    places 3 num den
  | _ => ""

end Duration

end TestOrchestrator
