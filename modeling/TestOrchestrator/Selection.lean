import TestOrchestrator.Parameters
import TestOrchestrator.Text.Split
/-!
# Selections and units

* `Selection` is what to run: groups, then either a suite or tests by themselves.
* `RunUnit` is one step of a run: a group, a suite or a test.
* `SelectionError` says why a selection has no units.
-/

namespace TestOrchestrator

/-- What to run. -/
structure Selection where
  groups : List String := []
  tests : List String := []
  suite : Option SuiteChoice := none
  deriving DecidableEq

/-- The selection that the caller asks for. A suite without a name is none. -/
def Parameters.selection (p : Parameters) : Selection := ⟨p.groups, p.tests, p.namedSuite?⟩

/-- One step of a run. -/
inductive RunUnit where
  | group (name : String)
  | suite (name : String) (tests : List String)
  | test (name : String)
  deriving DecidableEq

/-- The words for a unit. -/
def RunUnit.label : RunUnit → String
  | group name => "group " ++ name
  | suite name [] => "suite " ++ name
  | suite name tests => "suite " ++ name ++ " [" ++ Text.joined ", " tests ++ "]"
  | test name => "test " ++ name

/-- Why a selection cannot be run. -/
inductive SelectionError where
  | unknownGroup (name : String)
  | unknownTest (name : String)
  | unknownSuite (name : String)
  | unknownGroupTest (group test : String)
  /-- The groups in the order in which they were entered; the last is one of the others. -/
  | groupCycle (names : List String)
  deriving DecidableEq

/-- The wording of an error. -/
def SelectionError.message : SelectionError → String
  | unknownGroup name => "unknown group: " ++ name
  | unknownTest name => "unknown test: " ++ name
  | unknownSuite name => "unknown suite: " ++ name
  | unknownGroupTest group test =>
    "group '" ++ group ++ "' references unknown test '" ++ test ++ "'"
  | groupCycle names => "group cycle: " ++ Text.joined " -> " names

end TestOrchestrator
