import TestOrchestrator.Decimal.Numeral
import TestOrchestrator.Decimal.Power
import TestOrchestrator.Yaml.Value
/-!
# What plain text stands for

Plain text is a null, a truth value, a number or else a string.

* `Plain.whole?` and `Plain.double?` read numbers; `Plain.isOctalLike` tells apart digits with zeros
  in front, which are a string.
* `Value.ofPlain?` is the value of plain text. A whole number of more than 64 and up to 128 bits has
  none; a larger one is a double.
-/

namespace TestOrchestrator.Yaml

open Decimal

namespace Plain

/-- The spellings of null. The empty text is another one. -/
def isNull (s : String) : Bool := ["null", "Null", "NULL", "~"].contains s

/-- The truth value of a text. -/
def bool? (s : String) : Option Bool :=
  if ["true", "True", "TRUE"].contains s then some true
  else if ["false", "False", "FALSE"].contains s then some false
  else none

/-- Digits after a zero, with or without a sign. -/
def isOctalLike (cs : List Char) : Bool :=
  match cs with
  | '-' :: cs => go cs
  | '+' :: cs => go cs
  | cs => go cs
where
  /-- The same without a sign. -/
  go : List Char → Bool
    | '0' :: d :: ds => (d :: ds).all isDigit
    | _ => false

/-- The base that two letters in front announce, and the digits behind them. -/
def based? : List Char → Option (Nat × List Char)
  | '0' :: 'x' :: ds => some (16, ds)
  | '0' :: 'o' :: ds => some (8, ds)
  | '0' :: 'b' :: ds => some (2, ds)
  | _ => none

/-- A whole number without a sign, in any base. -/
def size? (cs : List Char) : Option Nat :=
  match based? cs with
  | some (base, ds) => natural? base ds
  | none => if isOctalLike cs then none else natural? 10 cs

/-- A whole number of any size. -/
def whole? (cs : List Char) : Option Int :=
  match cs with
  | '-' :: cs => (size? cs).map fun n => -(n : Int)
  | '+' :: cs => (size? cs).map Int.ofNat
  | cs => (size? cs).map Int.ofNat

/-- A double: a numeral in the range of the finite ones, or one of the words for the others. -/
def double? (cs : List Char) : Option Binary64 :=
  let s := String.ofList cs
  if [".inf", ".Inf", ".INF", "+.inf", "+.Inf", "+.INF"].contains s then some (.infinite false)
  else if ["-.inf", "-.Inf", "-.INF"].contains s then some (.infinite true)
  else if [".nan", ".NaN", ".NAN"].contains s then some .nan
  else (numeral? cs).filter Binary64.isFinite

/-- How a whole number can be kept. -/
inductive Width where
  | fits
  /-- More than 64 and at most 128 bits. -/
  | wide
  | beyond
  deriving DecidableEq

/-- The width of a whole number; a negative one takes a bit for its sign. -/
def width (n : Int) : Width :=
  if -(halfWord : Int) ≤ n ∧ n < (wordLimit : Int) then .fits
  else if -(halfWord * wordLimit : Int) ≤ n ∧ n < (wordLimit * wordLimit : Int) then .wide
  else .beyond

end Plain

namespace Value

open Plain

/-- The value of a text that is no whole number of 128 bits. -/
def ofWords (cs : List Char) : Value :=
  if isOctalLike cs then .str (String.ofList cs)
  else
    match double? cs with
    | some x => .float x
    | none => .str (String.ofList cs)

/-- The value of plain text. -/
def ofPlain? (cs : List Char) : Option Value :=
  let s := String.ofList cs
  if cs = [] || isNull s then some .null
  else
    match bool? s with
    | some b => some (.bool b)
    | none =>
      match whole? cs with
      | some n =>
        match width n with
        | .fits => some (.int n)
        | .wide => none
        | .beyond => some (ofWords cs)
      | none => some (ofWords cs)

end Value

end TestOrchestrator.Yaml
