import TestOrchestrator.Context
import TestOrchestrator.Suite
/-!
# Engines

* `Invocation` is all that an engine needs to run one test.
* `Engine σ` runs invocations. It has a state of its own, may change the context, and answers with a
  suite or with a text that says why there is none.
* `Engine.invoke` is one call; a suite without a name gets that of the test.
-/

namespace TestOrchestrator

/-- One test to run. -/
structure Invocation where
  name : String
  /-- Where the test is. -/
  path : Path
  version : Option String
  params : Params
  /-- The tests of a suite to run; no tests stands for all. -/
  tests : List String := []
  labels : List String
  priority : Option Int
  deriving DecidableEq

/-- The invocation of a test. Its own parameters are the first layer, then come the given ones, and
the bindings of the context last; later layers go before earlier ones. -/
def Invocation.of (c : Context) (name : String) (spec : TestSpec) (layers : List Params)
    (tests : List String := []) : Invocation where
  name
  path := c.resolvePath spec.path
  version := spec.version
  params := (layers.foldl Table.update spec.params).update c.bindings
  tests
  labels := c.labels
  priority := c.priority

/-- Where a run stands: the context and the state of the engine. -/
structure Session (σ : Type) where
  context : Context
  state : σ

/-- What runs tests. -/
structure Engine (σ : Type) where
  call : Invocation → Session σ → Except String Suite × Session σ

/-- Runs one invocation. -/
def Engine.invoke {σ : Type} (e : Engine σ) (i : Invocation) (s : Session σ) :
    Except String Suite × Session σ :=
  let (answer, s) := e.call i s
  (answer.map (Suite.orNamed i.name), s)

end TestOrchestrator
