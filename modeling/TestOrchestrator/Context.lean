import TestOrchestrator.Selection
/-!
# Contexts

What the units of a run share. What one unit binds, the units after it see.

* `Context.forRun` binds the parameters of the definition and then those of the caller.
* `Context.describe` writes the bindings, without their values if these are to be hidden.
-/

namespace TestOrchestrator

/-- What the units of a run share. -/
structure Context where
  /-- The run directory. -/
  baseDir : Path
  includeDirs : List Path := []
  bindings : Params := .empty
  redact : Bool := false
  labels : List String := []
  priority : Option Int := none
  /-- The labels of the units that were run, in order. -/
  executed : List String := []
  deriving DecidableEq

namespace Context

/-- Binds a name to a value. -/
def bind (c : Context) (name value : String) : Context :=
  { c with bindings := c.bindings.insert name value }

/-- Notes that a unit was run. -/
def record (c : Context) (label : String) : Context :=
  { c with executed := c.executed ++ [label] }

/-- A path of the definition, from the run directory unless absolute. -/
def resolvePath (c : Context) (path : String) : Path := c.baseDir.join ⟨path⟩

/-- What stands for a hidden value. -/
def hidden : String := "<redacted>"

/-- The bindings in order. -/
def describe (c : Context) : String :=
  let pairs := c.bindings.entries.map fun (name, value) =>
    name ++ "=" ++ if c.redact then hidden else value
  "\x7b" ++ Text.joined ", " pairs ++ "\x7d"

/-- Puts the value of a parameter of the definition under its name, if it has one. -/
def bindParam (env : Variables) (t : Params) (q : String × Binding) : Params :=
  match q.2.resolve env with
  | some value => t.insert q.1 value
  | none => t

/-- The context of a run. Parameters of the definition without a value are not bound; the caller's
bindings come last. -/
def forRun (env : Variables) (d : Definition) (baseDir : Path) (includeDirs : List Path)
    (p : Parameters) : Context where
  baseDir
  includeDirs
  bindings := (d.params.entries.foldl (bindParam env) .empty).update p.bindings
  redact := p.redact
  labels := p.labels
  priority := p.priority

end Context

end TestOrchestrator
