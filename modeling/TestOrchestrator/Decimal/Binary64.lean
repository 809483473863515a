/-!
# Doubles

The binary floating-point numbers of 64 bits as exact values: a sign and a magnitude
`mantissa * 2 ^ exponent`, the infinities and one value that is no number.

* `ofRatio neg num den` is the double nearest to `num / den`; a tie goes to the even mantissa, and
  what lies beyond the largest double becomes infinite.
* `add`, `mul` and `div` are the exact operation followed by that rounding.
* `ratio` is the exact value of a magnitude.

A magnitude is kept in the one form that rounding gives: the mantissa is below `2 ^ 53`, the
exponent at least `-1074`, and one of the two is as large, or as small, as that allows.
-/

namespace TestOrchestrator.Decimal

/-- The natural number nearest to `num / den`; a tie goes to the even one. -/
def roundDivEven (num den : Nat) : Nat :=
  let q := num / den
  let r := num % den
  if 2 * r < den then q
  else if den < 2 * r then q + 1
  else q + q % 2

/-- A double. -/
inductive Binary64 where
  | finite (neg : Bool) (mantissa : Nat) (exponent : Int)
  | infinite (neg : Bool)
  | nan
  deriving DecidableEq, Repr

namespace Binary64

/-- The zeros; the mantissa of a zero is 0 and its exponent the least. -/
def zero (neg : Bool) : Binary64 := .finite neg 0 (-1074)

/-- `num / den` scaled by `2 ^ (-e)` and rounded. -/
def scaled (num den : Nat) (e : Int) : Nat :=
  if e < 0 then roundDivEven (num <<< (-e).toNat) den
  else roundDivEven num (den <<< e.toNat)

/-- The exponent `k` with `2 ^ k ≤ num / den < 2 ^ (k + 1)`, for positive `num` and `den`. -/
def binade (num den : Nat) : Int :=
  let k : Int := (num.log2 : Int) - (den.log2 : Int)
  let fits :=
    if k < 0 then den ≤ num <<< (-k).toNat
    else den <<< k.toNat ≤ num
  if fits then k else k - 1

/-- The double nearest to `num / den`, where `den` is positive. -/
def ofRatio (neg : Bool) (num den : Nat) : Binary64 :=
  if num = 0 then zero neg
  else
    let e := max (binade num den - 52) (-1074)
    let m := scaled num den e
    if m = 0 then zero neg
    else
      let (m, e) := if m = 9007199254740992 then (4503599627370496, e + 1) else (m, e)
      if 971 < e then .infinite neg else .finite neg m e

/-- The double nearest to a whole number. -/
def ofInt (n : Int) : Binary64 := ofRatio (n < 0) n.natAbs 1

/-- The value of a magnitude as a quotient of natural numbers. -/
def ratio (m : Nat) (e : Int) : Nat × Nat :=
  if e < 0 then (m, 1 <<< (-e).toNat) else (m <<< e.toNat, 1)

/-- Below zero or the negative zero. -/
def isNegative : Binary64 → Bool
  | .finite neg _ _ => neg
  | .infinite neg => neg
  | .nan => false

/-- A zero of either sign. -/
def isZero : Binary64 → Bool
  | .finite _ m _ => m = 0
  | _ => false

/-- Neither infinite nor `nan`. -/
def isFinite : Binary64 → Bool
  | .finite .. => true
  | _ => false

/-- The sum of finite doubles, rounded. A sum of zero is negative only for two negative zeros. -/
def add : Binary64 → Binary64 → Binary64
  | .finite n₁ m₁ e₁, .finite n₂ m₂ e₂ =>
    let (a, b) := ratio m₁ e₁
    let (c, d) := ratio m₂ e₂
    let x : Int := (if n₁ then -1 else 1) * (a * d : Nat) + (if n₂ then -1 else 1) * (c * b : Nat)
    if x = 0 then zero (n₁ && n₂) else ofRatio (x < 0) x.natAbs (b * d)
  | .infinite n₁, .infinite n₂ => if n₁ = n₂ then .infinite n₁ else .nan
  | .infinite n, .finite .. => .infinite n
  | .finite .., .infinite n => .infinite n
  | _, _ => .nan

/-- The product of doubles, rounded. -/
def mul : Binary64 → Binary64 → Binary64
  | .finite n₁ m₁ e₁, .finite n₂ m₂ e₂ =>
    let (a, b) := ratio m₁ e₁
    let (c, d) := ratio m₂ e₂
    ofRatio (n₁ != n₂) (a * c) (b * d)
  | .nan, _ => .nan
  | _, .nan => .nan
  | x, y =>
    if x.isZero || y.isZero then .nan else .infinite (x.isNegative != y.isNegative)

/-- The quotient of doubles, rounded. -/
def div : Binary64 → Binary64 → Binary64
  | .finite n₁ m₁ e₁, .finite n₂ m₂ e₂ =>
    if m₂ = 0 then (if m₁ = 0 then .nan else .infinite (n₁ != n₂))
    else
      let (a, b) := ratio m₁ e₁
      let (c, d) := ratio m₂ e₂
      ofRatio (n₁ != n₂) (a * d) (b * c)
  | .infinite n₁, .finite n₂ _ _ => .infinite (n₁ != n₂)
  | .finite n₁ _ _, .infinite n₂ => zero (n₁ != n₂)
  | _, _ => .nan

/-- Equality of numbers, as keys of a mapping are told apart: the zeros are equal, and so are two
values that are no number. -/
def sameNumber (x y : Binary64) : Bool := x = y || (x.isZero && y.isZero)

end Binary64

end TestOrchestrator.Decimal
