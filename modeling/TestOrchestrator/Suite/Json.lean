import TestOrchestrator.Suite
import TestOrchestrator.Json.Record
/-!
# Suites in JSON

* `Suite.toJson` writes every count and the time, and leaves out what is absent.
* `Suite.ofJson?` needs the names and takes the rest as absent or zero when it is missing; members
  that are no field are passed over.

Times are in seconds, timestamps in RFC 3339.
-/

namespace TestOrchestrator

/-- A timestamp as a text. -/
def Timestamp.toJson (t : Timestamp) : Json := .str t.render

/-- A duration as a number of seconds. -/
def Duration.toJson (d : Duration) : Json := .float d.toSeconds

/-- A timestamp from a text. -/
def Timestamp.ofJson? (j : Json) : Option Timestamp := j.text?.bind fun s => read? s.toList

namespace Note

def fields : List String := ["message", "detail"]

def toJson (n : Note) : Json :=
  .obj (("message", .str n.message) :: Json.member? "detail" .str n.detail)

def ofJson? (j : Json) : Option Note := do
  let r ← j.record? fields
  let message ← Json.optional r "message" "" Json.text?
  let detail ← Json.optional r "detail" none (Json.nullable? Json.text?)
  return { message, detail }

end Note

namespace Case

def fields : List String :=
  ["name", "classname", "time", "failure", "error", "skipped", "system_out"]

def toJson (c : Case) : Json :=
  .obj ([("name", .str c.name), ("classname", .str c.classname), ("time", c.time.toJson)] ++
    Json.member? "failure" Note.toJson c.failure ++ Json.member? "error" Note.toJson c.error ++
    Json.member? "skipped" Note.toJson c.skipped ++ Json.member? "system_out" .str c.systemOut)

def ofJson? (j : Json) : Option Case := do
  let r ← j.record? fields
  let name ← Json.required r "name" Json.text?
  let classname ← Json.optional r "classname" "" Json.text?
  let time ← Json.optional r "time" .zero Json.seconds?
  let failure ← Json.optional r "failure" none (Json.nullable? Note.ofJson?)
  let error ← Json.optional r "error" none (Json.nullable? Note.ofJson?)
  let skipped ← Json.optional r "skipped" none (Json.nullable? Note.ofJson?)
  let systemOut ← Json.optional r "system_out" none (Json.nullable? Json.text?)
  return { name, classname, time, failure, error, skipped, systemOut }

end Case

/-- The members of the four counts. -/
def Counts.members (c : Counts) : Json.Members :=
  [("tests", .int c.total), ("skipped", .int c.skipped), ("failures", .int c.failures),
    ("errors", .int c.errors)]

namespace Suite

def fields : List String :=
  ["name", "tests", "skipped", "failures", "errors", "time", "timestamp", "testcase"]

def toJson (s : Suite) : Json :=
  .obj (("name", .str s.name) :: s.counts.members ++ [("time", s.time.toJson)] ++
    Json.member? "timestamp" Timestamp.toJson s.timestamp ++
    [("testcase", .arr (s.cases.map Case.toJson))])

def ofJson? (j : Json) : Option Suite := do
  let r ← j.record? fields
  let name ← Json.required r "name" Json.text?
  let total ← Json.optional r "tests" 0 Json.count?
  let skipped ← Json.optional r "skipped" 0 Json.count?
  let failures ← Json.optional r "failures" 0 Json.count?
  let errors ← Json.optional r "errors" 0 Json.count?
  let time ← Json.optional r "time" .zero Json.seconds?
  let timestamp ← Json.optional r "timestamp" none (Json.nullable? Timestamp.ofJson?)
  let cases ← Json.optional r "testcase" [] (Json.list? Case.ofJson?)
  return { name, counts := ⟨total, skipped, failures, errors⟩, time, timestamp, cases }

end Suite

end TestOrchestrator
