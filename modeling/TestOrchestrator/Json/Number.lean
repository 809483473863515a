import TestOrchestrator.Decimal.Power
import TestOrchestrator.Json.Value
/-!
# The numbers of JSON texts

* `Number` is the parts of a number as it is written.
* `Number.value?` is the number that they stand for. Whole numbers from `-2 ^ 63` to `2 ^ 64 - 1`
  are exact. All others are doubles, computed as a significand times a power of ten, both as
  doubles: the result may differ in its last bits from the double nearest to the decimal.
-/

namespace TestOrchestrator.Json

open Decimal

/-- A number as it is written: its sign, its digits before and after the point, and the sign and
digits of its exponent. -/
structure Number where
  neg : Bool
  whole : List Char
  fraction : List Char
  exponent : Option (Bool × List Char)

/-- The digits of a significand as far as they fit into 64 bits. -/
structure Significand where
  value : Nat
  /-- The power of ten that the value is multiplied by. -/
  scale : Int
  /-- A digit did not fit. -/
  full : Bool

namespace Significand

/-- Takes a digit before the point. The first digit that does not fit and all after it only
count. -/
def pushWhole (s : Significand) (d : Char) : Significand :=
  let v := s.value * 10 + (d.toNat - 48)
  if s.full || wordLimit ≤ v then { s with scale := s.scale + 1, full := true }
  else { s with value := v }

/-- Takes a digit after the point. The first digit that does not fit and all after it are
dropped. -/
def pushFraction (s : Significand) (d : Char) : Significand :=
  let v := s.value * 10 + (d.toNat - 48)
  if s.full || wordLimit ≤ v then { s with full := true }
  else { s with value := v, scale := s.scale - 1 }

end Significand

/-- `f * 10 ^ e` in doubles, in steps of at most 308 powers of ten. -/
def shiftTens : Nat → Binary64 → Int → Option Binary64
  | 0, f, _ => some f
  | fuel + 1, f, e =>
    if e.natAbs ≤ 308 then
      let power := Binary64.ofRatio false (tens e.natAbs) 1
      if 0 ≤ e then
        let g := f.mul power
        if g.isFinite then some g else none
      else some (f.div power)
    else if f.isZero then some f
    else if 0 ≤ e then none
    else shiftTens fuel (f.div (Binary64.ofRatio false (tens 308) 1)) (e + 308)

namespace Number

/-- The significand; the digits before the point that do not fit raise the scale. -/
def significand (n : Number) : Significand :=
  let whole := n.whole.foldl Significand.pushWhole ⟨0, 0, false⟩
  n.fraction.foldl Significand.pushFraction { whole with full := false }

/-- The size of the exponent, if it fits into 31 bits. -/
def exponentSize? (ds : List Char) : Option Nat :=
  ds.foldlM (fun e d =>
    let v := e * 10 + (d.toNat - 48)
    if 2147483648 ≤ v then none else some v) 0

/-- The size of the number as a double. An exponent that is too large to count gives zero when it is
negative or the digits are all zero, and nothing otherwise. -/
def magnitude? (n : Number) : Option Binary64 :=
  let s := n.significand
  let f := Binary64.ofRatio false s.value 1
  match n.exponent with
  | none => shiftTens 8 f s.scale
  | some (neg, ds) =>
    match exponentSize? ds with
    | some e => shiftTens 8 f (if neg then s.scale - e else s.scale + e)
    | none => if s.value = 0 || neg then some (Binary64.zero false) else none

/-- The value of a number. -/
def value? (n : Number) : Option Json :=
  let whole := n.whole.foldl Significand.pushWhole ⟨0, 0, false⟩
  if n.fraction.isEmpty && n.exponent.isNone && !whole.full
      && (!n.neg || (0 < whole.value && whole.value ≤ halfWord)) then
    some (.int (if n.neg then -whole.value else whole.value))
  else
    n.magnitude?.map fun x =>
      .float (match x with
        | .finite _ m e => .finite n.neg m e
        | x => x)

end Number

end TestOrchestrator.Json
