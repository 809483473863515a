import TestOrchestrator.Decimal.Power
import TestOrchestrator.Json.Value
import TestOrchestrator.Table
import TestOrchestrator.Time.Duration
/-!
# Records in JSON

A record is an object with one member per field, or an array with the fields in their order.

* `Json.record? names j` is the members of a record by name. Names that are no field are passed
  over, a field given twice makes the record unreadable, and an array must not be longer than the
  record.
* `Json.required` and `Json.optional` read one field of it.
* `Json.text?`, `Json.count?`, `Json.seconds?`, … read the value of a field.
-/

namespace TestOrchestrator.Json

open Decimal

/-- A record's members by name. -/
abbrev Members := List (String × Json)

/-- The members whose name is a field, unless a field is given twice. -/
def fieldsOf (names : List String) : Members → Option Members
  | [] => some []
  | (name, j) :: ms =>
    match fieldsOf names ms with
    | none => none
    | some fields =>
      if names.contains name then
        if (fields.lookup name).isSome then none else some ((name, j) :: fields)
      else some fields

/-- The members of a record. -/
def record? (names : List String) : Json → Option Members
  | .obj ms => fieldsOf names ms
  | .arr js => if js.length ≤ names.length then some (names.zip js) else none
  | _ => none

/-- The value of a field that must be there. -/
def required {α : Type} (ms : Members) (name : String) (read : Json → Option α) : Option α :=
  (ms.lookup name).bind read

/-- The value of a field that may be left out. -/
def optional {α : Type} (ms : Members) (name : String) (default : α) (read : Json → Option α) :
    Option α :=
  match ms.lookup name with
  | none => some default
  | some j => read j

/-! ## Values of fields -/

/-- A text. -/
def text? : Json → Option String
  | .str s => some s
  | _ => none

/-- A value that may be `null`. -/
def nullable? {α : Type} (read : Json → Option α) : Json → Option (Option α)
  | .null => some none
  | j => (read j).map some

/-- A whole number of 64 bits without a sign. -/
def count? : Json → Option Nat
  | .int (.ofNat n) => if n < wordLimit then some n else none
  | _ => none

/-- Any number as a double. -/
def double? : Json → Option Binary64
  | .int n => some (Binary64.ofInt n)
  | .float x => some x
  | _ => none

/-- A duration in seconds. -/
def seconds? (j : Json) : Option Duration := (double? j).bind Duration.ofSeconds?

/-- A list of values. -/
def list? {α : Type} (read : Json → Option α) : Json → Option (List α)
  | .arr js => js.mapM read
  | _ => none

/-- An object as a table; of a name given twice the last value stays. -/
def table? {α : Type} (read : Json → Option α) : Json → Option (Table α)
  | .obj ms => (ms.mapM fun m : String × Json => (read m.2).map (m.1, ·)).map Table.ofList
  | _ => none

/-- A table as an object, in the order of the names. -/
def ofTable {α : Type} (write : α → Json) (t : Table α) : Json :=
  .obj (t.entries.map fun (name, a) => (name, write a))

/-- A member for a value that is there. -/
def member? {α : Type} (name : String) (write : α → Json) (a : Option α) : Members :=
  match a with
  | some a => [(name, write a)]
  | none => []

end TestOrchestrator.Json
