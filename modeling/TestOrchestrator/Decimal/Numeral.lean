import TestOrchestrator.Decimal.Binary64
import TestOrchestrator.Decimal.Power
/-!
# Decimal numerals

* `natural? base cs` reads a whole number in a base from 2 to 16.
* `numeral? cs` reads a decimal numeral with a sign, a point and an exponent, all of which may be
  missing, as the nearest double. Digits must stand before or behind the point.
-/

namespace TestOrchestrator.Decimal

/-- The value of a digit below `base`; letters of either case are the digits from ten on. -/
def digit? (base : Nat) (c : Char) : Option Nat :=
  let n := c.toNat
  let v :=
    if '0' ≤ c && c ≤ '9' then n - 48
    else if 'a' ≤ c && c ≤ 'f' then n - 87
    else if 'A' ≤ c && c ≤ 'F' then n - 55
    else 16
  if v < base then some v else none

/-- The number of one or more digits. -/
def natural? (base : Nat) (cs : List Char) : Option Nat :=
  if cs = [] then none
  else cs.foldlM (fun v c => (digit? base c).map (v * base + ·)) 0

/-- Whether a character is a decimal digit. -/
def isDigit (c : Char) : Bool := '0' ≤ c && c ≤ '9'

/-- Digits and what follows them. -/
def spanDigits (cs : List Char) : List Char × List Char :=
  (cs.takeWhile isDigit, cs.dropWhile isDigit)

/-- Whether a text begins with a minus sign, and what follows its sign. -/
def sign (cs : List Char) : Bool × List Char :=
  match cs with
  | '-' :: cs => (true, cs)
  | '+' :: cs => (false, cs)
  | cs => (false, cs)

/-- The exponent at the end of a numeral. -/
def exponent? : List Char → Option Int
  | [] => some 0
  | c :: cs =>
    if c = 'e' || c = 'E' then
      let (neg, ds) := sign cs
      if ds.all isDigit then (natural? 10 ds).map fun n => if neg then -(n : Int) else n else none
    else none

/-- The double nearest to `n * 10 ^ e`. Beyond `10 ^ 400` and below `10 ^ -400` the digits make no
difference. -/
def scaledTens (neg : Bool) (n : Nat) (length : Nat) (e : Int) : Binary64 :=
  if n = 0 then Binary64.zero neg
  else if 400 < e + (length : Int) then .infinite neg
  else if e + (length : Int) < -400 then Binary64.zero neg
  else if 0 ≤ e then Binary64.ofRatio neg (n * tens e.toNat) 1
  else Binary64.ofRatio neg n (tens (-e).toNat)

/-- The double nearest to a decimal numeral. -/
def numeral? (cs : List Char) : Option Binary64 :=
  let (neg, cs) := sign cs
  let (whole, cs) := spanDigits cs
  let (fraction, cs) :=
    match cs with
    | '.' :: cs => spanDigits cs
    | cs => ([], cs)
  let digits := (whole ++ fraction).dropWhile (· = '0')
  if whole = [] && fraction = [] then none
  else
    (exponent? cs).map fun e =>
      scaledTens neg ((natural? 10 digits).getD 0) digits.length (e - (fraction.length : Int))

end TestOrchestrator.Decimal
