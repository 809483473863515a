import TestOrchestrator.Definition
import TestOrchestrator.LogLevel
import TestOrchestrator.Path
/-!
# Parameters of a run

What the caller asks for: where the run is, what to run of it, and how to report.

* `Parameters.namedSuite?` is the named suite, unless its name is empty.
* `Parameters.effectiveLogLevel` is the level with `verbose` taken into account.
-/

namespace TestOrchestrator

/-- A suite by name, and the tests of it to run; no tests stands for all. -/
structure SuiteChoice where
  name : String
  tests : List String := []
  deriving DecidableEq

/-- The format of a report. -/
inductive Format where
  | json
  | xml
  deriving DecidableEq, Repr

namespace Format

/-- The format of a word, in any case. -/
def ofWord? (s : String) : Option Format :=
  match Text.lowerAscii s with
  | "json" => some json
  | "xml" => some xml
  | "junit" => some xml
  | _ => none

/-- What is said about a word that is no format. -/
def unknownMessage (s : String) : String := "unknown report format: " ++ s

/-- JSON if asked for, else XML. -/
def ofFlag (json : Bool) : Format := if json then .json else .xml

end Format

/-- What the caller asks for. -/
structure Parameters where
  /-- The run directory. -/
  dir : Option Path := none
  /-- The file with the run definition. -/
  filename : Option Path := none
  /-- Where included files are looked for, in order. -/
  includeDirs : List Path := []
  /-- Parameter values that go before those of the definition. -/
  bindings : Params := .empty
  groups : List String := []
  tests : List String := []
  suite : Option SuiteChoice := none
  emitJson : Bool := false
  verbose : Bool := false
  logLevel : LogLevel := .info
  /-- Whether parameter values are hidden from logs. -/
  redact : Bool := false
  labels : List String := []
  priority : Option Int := none

namespace Parameters

/-- The named suite, unless its name is empty. -/
def namedSuite? (p : Parameters) : Option SuiteChoice := p.suite.filter (·.name ≠ "")

/-- The log level; `verbose` raises all that is quieter than `debug`. -/
def effectiveLogLevel (p : Parameters) : LogLevel :=
  match p.logLevel with
  | .trace => .trace
  | l => if p.verbose then .debug else l

end Parameters

end TestOrchestrator
