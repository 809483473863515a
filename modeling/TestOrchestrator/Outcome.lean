import TestOrchestrator.Engine
/-!
# Outcomes of units

Each unit has one outcome: a suite, or an error that says why there is none.

* `Outcome` is what a unit ends with.
* `notDefined` and `inGroup` word the errors that are not the engine's alone.
-/

namespace TestOrchestrator

/-- A unit has no suite. -/
structure ExecutionError where
  /-- The label of the unit. -/
  unit : String
  message : String
  deriving DecidableEq

/-- The unit and what went wrong. -/
def ExecutionError.describe (e : ExecutionError) : String := e.unit ++ ": " ++ e.message

/-- The errors in one line. -/
def errorSummary (es : List ExecutionError) : String :=
  Text.joined "; " (es.map ExecutionError.describe)

/-- What a unit ends with. -/
inductive Outcome where
  | suite (s : Suite)
  | error (e : ExecutionError)
  deriving DecidableEq

namespace Outcome

def isError : Outcome → Bool
  | suite _ => false
  | error _ => true

/-- The error, if it is one. -/
def error? : Outcome → Option ExecutionError
  | suite _ => none
  | error e => some e

end Outcome

/-- What is said about a name that stands for nothing. -/
def notDefined (kind name : String) : String := kind ++ " '" ++ name ++ "' is not defined"

/-- What is said about a call that failed inside a group. -/
def inGroup (test group why : String) : String :=
  "test '" ++ test ++ "' in group '" ++ group ++ "': " ++ why

end TestOrchestrator
