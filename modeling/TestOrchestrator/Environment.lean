import TestOrchestrator.Parameters
import TestOrchestrator.Text.Split
/-!
# Settings from the environment

The variables that stand in for options of the command line. A variable that is set to the empty
text, or to what is no text, counts as unset.

* `Environment.load env` reads the variables.
* `splitPaths` cuts a text with a list of paths at its colons and drops the empty ones; `joinPaths?`
  is the list in one text of the operating system, unless a path holds a colon.
-/

namespace TestOrchestrator

/-! ## Lists of paths -/

/-- The paths between the colons of a text, the empty ones left out. -/
def splitPaths (s : String) : List Path :=
  ((Text.splitOn ':' s.toList).filter (· ≠ [])).map fun cs => .ofText (String.ofList cs)

/-- Paths in a row with colons between; a path with a colon cannot be in it. -/
def joinPaths? (ps : List Path) : Option OsText :=
  if ps.any (·.bytes.contains Byte.colon) then none
  else some ⟨Text.join [Byte.colon] (ps.map Path.bytes)⟩

/-! ## Settings -/

/-- What the environment sets. -/
structure Environment where
  dir : Option Path := none
  runFile : Option Path := none
  includeDirs : List Path := []
  json : Option Bool := none
  logLevel : Option String := none
  redact : Option Bool := none

namespace Environment

/-- What all variables begin with. -/
def variableName (name : String) : String := "SUITERUN_" ++ name

/-- The value of a variable, if it is a text and not empty. -/
def value? (env : Variables) (name : String) : Option String :=
  (env.text? (variableName name)).filter (· ≠ "")

/-- The words for true and false, in any case. -/
def truth? (s : String) : Option Bool :=
  match Text.lowerAscii s with
  | "true" => some true
  | "1" => some true
  | "yes" => some true
  | "on" => some true
  | "false" => some false
  | "0" => some false
  | "no" => some false
  | "off" => some false
  | _ => none

/-- Reads the variables. -/
def load (env : Variables) : Environment where
  dir := (value? env "DIR").map Path.ofText
  runFile := (value? env "RUN").map Path.ofText
  includeDirs := ((value? env "INCLUDE").map splitPaths).getD []
  json := (value? env "JSON").bind truth?
  logLevel := value? env "LOG"
  redact := (value? env "REDACT").bind truth?

/-- Whether anything is set. -/
def hasAny (e : Environment) : Bool :=
  e.dir.isSome || e.runFile.isSome || !e.includeDirs.isEmpty || e.json.isSome ||
    e.logLevel.isSome || e.redact.isSome

end Environment

end TestOrchestrator
