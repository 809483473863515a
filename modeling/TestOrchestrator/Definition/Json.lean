import TestOrchestrator.Definition
import TestOrchestrator.Json.Record
/-!
# Run definitions in JSON

* `Definition.toJson` leaves out optional values that are absent and writes all else.
* `Definition.ofJson?` needs names and paths and takes the rest as absent or empty when it is
  missing.
-/

namespace TestOrchestrator

/-- Parameter values as an object of texts. -/
def Params.toJson (p : Params) : Json := Json.ofTable .str p

/-- An object of texts as parameter values. -/
def Params.ofJson? (j : Json) : Option Params := Json.table? Json.text? j

namespace TestSpec

def fields : List String := ["path", "version", "params"]

def toJson (t : TestSpec) : Json :=
  .obj (("path", .str t.path) :: Json.member? "version" .str t.version ++
    [("params", Params.toJson t.params)])

def ofJson? (j : Json) : Option TestSpec := do
  let r ← j.record? fields
  let path ← Json.required r "path" Json.text?
  let version ← Json.optional r "version" none (Json.nullable? Json.text?)
  let params ← Json.optional r "params" .empty Params.ofJson?
  return { path, version, params }

end TestSpec

namespace Ref

def fields : List String := ["name", "params"]

def toJson (r : Ref) : Json := .obj [("name", .str r.name), ("params", Params.toJson r.params)]

def ofJson? (j : Json) : Option Ref := do
  let r ← j.record? fields
  let name ← Json.required r "name" Json.text?
  let params ← Json.optional r "params" .empty Params.ofJson?
  return { name, params }

end Ref

namespace GroupSpec

def fields : List String := ["params", "tests", "groups"]

def toJson (g : GroupSpec) : Json :=
  .obj [("params", Params.toJson g.params), ("tests", .arr (g.tests.map Ref.toJson)),
    ("groups", .arr (g.groups.map Ref.toJson))]

def ofJson? (j : Json) : Option GroupSpec := do
  let r ← j.record? fields
  let params ← Json.optional r "params" .empty Params.ofJson?
  let tests ← Json.optional r "tests" [] (Json.list? Ref.ofJson?)
  let groups ← Json.optional r "groups" [] (Json.list? Ref.ofJson?)
  return { params, tests, groups }

end GroupSpec

namespace Binding

def fields : List String := ["value", "env", "description"]

def toJson (b : Binding) : Json :=
  .obj (Json.member? "value" .str b.value ++ Json.member? "env" .str b.env ++
    Json.member? "description" .str b.description)

def ofJson? (j : Json) : Option Binding := do
  let r ← j.record? fields
  let value ← Json.optional r "value" none (Json.nullable? Json.text?)
  let env ← Json.optional r "env" none (Json.nullable? Json.text?)
  let description ← Json.optional r "description" none (Json.nullable? Json.text?)
  return { value, env, description }

end Binding

namespace Definition

def fields : List String := ["name", "version", "tests", "groups", "params"]

def toJson (d : Definition) : Json :=
  .obj [("name", .str d.name), ("version", .str d.version),
    ("tests", Json.ofTable TestSpec.toJson d.tests),
    ("groups", Json.ofTable GroupSpec.toJson d.groups),
    ("params", Json.ofTable Binding.toJson d.params)]

def ofJson? (j : Json) : Option Definition := do
  let r ← j.record? fields
  let name ← Json.required r "name" Json.text?
  let version ← Json.optional r "version" "" Json.text?
  let tests ← Json.optional r "tests" .empty (Json.table? TestSpec.ofJson?)
  let groups ← Json.optional r "groups" .empty (Json.table? GroupSpec.ofJson?)
  let params ← Json.optional r "params" .empty (Json.table? Binding.ofJson?)
  return { name, version, tests, groups, params }

end Definition

end TestOrchestrator
