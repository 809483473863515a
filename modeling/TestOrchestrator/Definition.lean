import TestOrchestrator.Variables
/-!
# Run definitions

What can be run: tests by name, groups of tests and of other groups, and parameter bindings.

* `TestSpec` says where a test is; `GroupSpec` lists its members by reference.
* `Binding.resolve env b` is the value of a parameter: an environment variable that is set to a
  text, else the literal value.
-/

namespace TestOrchestrator

/-- Parameter values by name. -/
abbrev Params := Table String

/-- A test, or a suite of tests, that can be run. -/
structure TestSpec where
  /-- Where the test is, from the run directory unless absolute. -/
  path : String
  version : Option String := none
  params : Params := .empty
  deriving DecidableEq

/-- A reference to a test or a group, with parameters for it. -/
structure Ref where
  name : String
  params : Params := .empty
  deriving DecidableEq

/-- A group: its tests, then its groups. -/
structure GroupSpec where
  params : Params := .empty
  tests : List Ref := []
  groups : List Ref := []
  deriving DecidableEq

/-- A parameter that the definition gives a value. -/
structure Binding where
  value : Option String := none
  /-- The environment variable that gives the value when it is set. -/
  env : Option String := none
  description : Option String := none
  deriving DecidableEq

/-- The environment variable if it is set to a text, else the literal value. -/
def Binding.resolve (env : Variables) (b : Binding) : Option String :=
  (b.env.bind env.text?).or b.value

/-- A run definition. -/
structure Definition where
  name : String
  version : String := ""
  tests : Table TestSpec := .empty
  groups : Table GroupSpec := .empty
  params : Table Binding := .empty
  deriving DecidableEq

namespace Definition

/-- The test of a name. -/
def test? (d : Definition) (name : String) : Option TestSpec := d.tests.get? name

/-- The group of a name. -/
def group? (d : Definition) (name : String) : Option GroupSpec := d.groups.get? name

end Definition

end TestOrchestrator
