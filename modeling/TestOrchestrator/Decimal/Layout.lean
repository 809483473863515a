import TestOrchestrator.Decimal.Power
import TestOrchestrator.Decimal.Shortest
/-!
# The written form of a double

Digits are laid out with a point when the number is neither large nor small, and with an exponent
otherwise. What differs between formats is a `Layout`.

* `Layout.render` writes a double in the shortest form that reads back.
* `places k num den` writes `num / den` with `k` places after the point, a half going to the even
  neighbour.
-/

namespace TestOrchestrator.Decimal

/-- The decimal digits of a number. -/
def digitsOf (n : Nat) : List Char := Nat.toDigits 10 n

/-- What a format decides about the text of a double. The place of the point is the number of digits
before it, negative when zeros stand between the point and the first digit. -/
structure Layout where
  /-- The largest place at which a point is written rather than an exponent. -/
  maxPoint : Int
  /-- The places at which a point is written are above this one. -/
  minPoint : Int
  /-- Whether an exponent that is not negative has a sign. -/
  plus : Bool
  infinity : String
  negInfinity : String
  notANumber : String

namespace Layout

/-- Digits `ds` with the point after the first `point` of them. -/
def positional (ds : List Char) (point : Int) : List Char :=
  if point ≤ 0 then '0' :: '.' :: (List.replicate (-point).toNat '0' ++ ds)
  else
    let k := point.toNat
    if ds.length ≤ k then ds ++ List.replicate (k - ds.length) '0' ++ ['.', '0']
    else ds.take k ++ '.' :: ds.drop k

/-- Digits `ds` with the point after the first and the exponent `x`. -/
def scientific (l : Layout) (ds : List Char) (x : Int) : List Char :=
  let mantissa :=
    match ds with
    | [] => []
    | [d] => [d]
    | d :: rest => d :: '.' :: rest
  let sign := if x < 0 then ['-'] else if l.plus then ['+'] else []
  mantissa ++ 'e' :: sign ++ digitsOf x.natAbs

/-- The text of a double. -/
def render (l : Layout) : Binary64 → String
  | .nan => l.notANumber
  | .infinite neg => if neg then l.negInfinity else l.infinity
  | .finite neg m e =>
    let body :=
      if m = 0 then ['0', '.', '0']
      else
        let (d, p) := Shortest.digits m e
        let ds := digitsOf d
        let point := (ds.length : Int) + p
        if l.minPoint < point ∧ point ≤ l.maxPoint then positional ds point
        else l.scientific ds (point - 1)
    String.ofList (if neg then '-' :: body else body)

end Layout

/-- `num / den` with `k` places after the point. -/
def places (k num den : Nat) : String :=
  let n := roundDivEven (num * tens k) den
  let fraction := digitsOf (n % tens k)
  String.ofList
    (digitsOf (n / tens k) ++ '.' :: (List.replicate (k - fraction.length) '0' ++ fraction))

end TestOrchestrator.Decimal
