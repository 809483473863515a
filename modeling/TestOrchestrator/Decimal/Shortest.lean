import TestOrchestrator.Decimal.Binary64
import TestOrchestrator.Decimal.Power
/-!
# The shortest decimal of a double

The fewest digits that read back as the same double and, of those, the decimal nearest to it.

* `Shortest.interval m e` is the interval of the numbers that round to `m * 2 ^ e`, its ends
  included when `m` is even.
* `Shortest.digits m e` is the pair of the digits, as a number without trailing zeros, and the power
  of ten that they are multiplied by.
-/

namespace TestOrchestrator.Decimal.Shortest

/-- The numbers that round to one double, as numerators over a common denominator. -/
structure Interval where
  low : Nat
  value : Nat
  high : Nat
  den : Nat
  closed : Bool

/-- The numbers that round to `m * 2 ^ e`. Below the first mantissa of a binade the doubles are
twice as dense. -/
def interval (m : Nat) (e : Int) : Interval :=
  let below := if m = 4503599627370496 ∧ -1074 < e then 1 else 2
  let (unit, den) := Binary64.ratio 1 (e - 2)
  ⟨(4 * m - below) * unit, 4 * m * unit, (4 * m + 2) * unit, den, m % 2 = 0⟩

/-- Whether `d * 10 ^ p` rounds to the double. -/
def Interval.contains (i : Interval) (d : Nat) (p : Int) : Bool :=
  let x := if p < 0 then d else d * tens p.toNat
  let s := if p < 0 then tens (-p).toNat else 1
  let x := x * i.den
  if i.closed then i.low * s ≤ x && x ≤ i.high * s
  else i.low * s < x && x < i.high * s

/-- The number of the steps of `10 ^ p` that fit in the value, and whether the next one is nearer;
when both are equally near, the even one is taken. -/
def Interval.neighbours (i : Interval) (p : Int) : Nat × Bool :=
  let num := if p < 0 then i.value * tens (-p).toNat else i.value
  let den := if p < 0 then i.den else i.den * tens p.toNat
  let q := num / den
  let r := num % den
  (q, den < 2 * r || (den = 2 * r && q % 2 = 1))

/-- The decimal on the grid of `10 ^ p` that rounds to the double, the nearer one if there are
two. -/
def Interval.onGrid? (i : Interval) (p : Int) : Option Nat :=
  let (q, up) := i.neighbours p
  let lower := 0 < q && i.contains q p
  let upper := i.contains (q + 1) p
  if lower && upper then some (if up then q + 1 else q)
  else if lower then some q
  else if upper then some (q + 1)
  else none

/-- The power of ten at or just below the value: within one of the exact one. -/
def magnitude (m : Nat) (e : Int) : Int := ((m.log2 : Int) + e) * 30103 / 100000

/-- Takes factors of ten out of `d`, at most `fuel` of them. -/
def stripTens : Nat → Nat → Int → Nat × Int
  | 0, d, p => (d, p)
  | fuel + 1, d, p => if d % 10 = 0 && d != 0 then stripTens fuel (d / 10) (p + 1) else (d, p)

/-- Tries ever finer grids, the first with a decimal in the interval wins. -/
def search (i : Interval) : Nat → Int → Nat × Int
  | 0, p => (i.value / i.den, p)
  | fuel + 1, p =>
    match i.onGrid? p with
    | some d => stripTens 20 d p
    | none => search i fuel (p - 1)

/-- The shortest digits of `m * 2 ^ e` and the power of ten at their end, for positive `m`. -/
def digits (m : Nat) (e : Int) : Nat × Int := search (interval m e) 24 (magnitude m e + 2)

end TestOrchestrator.Decimal.Shortest
