import TestOrchestrator.Definition
import TestOrchestrator.Yaml.Value.Reader
/-!
# Run definitions in YAML

A definition is read from the nodes of a document, not from its value: a text field takes the words
of any scalar, whatever they would stand for elsewhere.

* `Fields.record` reads a mapping with known keys; a key given twice is refused, an unknown one is
  passed over.
* `Fields.text`, `Fields.optionalText`, `Fields.list` and `Fields.table` read the values of fields.
* `Definition.ofYaml?` reads a definition from bytes.

Where a mapping or list is expected, nothing at all stands for an empty one.
-/

namespace TestOrchestrator

open Yaml

namespace Yaml.Fields

variable (d : Document)

/-- The words of a scalar. -/
def text (n : Node) : Reading String := do
  match ← d.follow n with
  | .scalar _ _ cs => return String.ofList cs
  | _ => failure

/-- Whether a scalar stands for nothing. One that is tagged as null must. -/
def isNothing? (tag : Option (List UInt8)) (style : Style) (cs : List Char) : Option Bool :=
  let null := Plain.isNull (String.ofList cs)
  if style ≠ .plain then some false
  else
    match tag with
    | none => some (cs = [] || null)
    | some tag => if tag = Tag.common "null" then (if null then some true else none) else some false

/-- The words of a scalar, unless it stands for nothing. -/
def optionalText (n : Node) : Reading (Option String) := do
  match ← d.follow n with
  | .scalar p style cs =>
    match isNothing? p.tag style cs with
    | some true => return none
    | some false => return some (String.ofList cs)
    | none => failure
  | _ => failure

/-- Whether nothing is written where a collection is expected. -/
def isBlank (style : Style) (cs : List Char) : Bool := style = .plain && cs = []

/-- The entries of a mapping. -/
def entries (n : Node) : Reading (List (Node × Node)) := do
  match ← d.follow n with
  | .mapping _ es => return es
  | .scalar _ style cs => if isBlank style cs then return [] else failure
  | _ => failure

/-- A list. -/
def list {α : Type} (read : Node → Reading α) (n : Node) : Reading (List α) := do
  match ← d.follow n with
  | .sequence _ items => items.mapM read
  | .scalar _ style cs => if isBlank style cs then return [] else failure
  | _ => failure

/-- A table; of a name given twice the last value stays. -/
def table {α : Type} (read : Node → Reading α) (n : Node) : Reading (Table α) := do
  let es ← entries d n
  return Table.ofList (← es.mapM fun e => do return (← text d e.1, ← read e.2))

/-- Reads a mapping entry by entry. `step` takes the value of a known key into what was read; it
gives nothing for an unknown one. -/
def record {α : Type} (step : String → Option (Node → α → Reading α)) (start : α) (n : Node) :
    Reading α := do
  let es ← entries d n
  let (a, _) ← es.foldlM (fun (s : α × List String) e => do
    let key ← text d e.1
    match step key with
    | none => return s
    | some take =>
      if s.2.contains key then failure
      else return (← take e.2 s.1, key :: s.2)) (start, [])
  return a

/-- A value that must have been read. -/
def given {α : Type} (a : Option α) : Reading α := a.elim failure pure

end Yaml.Fields

open Yaml.Fields

variable (d : Document)

namespace Params

/-- Parameter values. -/
def read (n : Node) : Reading Params := Fields.table d (Fields.text d) n

end Params

namespace TestSpec

/-- A test; its path must be given. -/
def read (n : Node) : Reading TestSpec := do
  let (path, t) ← record d (fun
    | "path" => some fun n (_, t) => return (some (← text d n), t)
    | "version" => some fun n (p, t) => return (p, { t with version := ← optionalText d n })
    | "params" => some fun n (p, t) => return (p, { t with params := ← Params.read d n })
    | _ => none) ((none : Option String), ({ path := "" } : TestSpec)) n
  return { t with path := ← given path }

end TestSpec

namespace Ref

/-- A reference; its name must be given. -/
def read (n : Node) : Reading Ref := do
  let (name, r) ← record d (fun
    | "name" => some fun n (_, r) => return (some (← text d n), r)
    | "params" => some fun n (m, r) => return (m, { r with params := ← Params.read d n })
    | _ => none) ((none : Option String), ({ name := "" } : Ref)) n
  return { r with name := ← given name }

end Ref

namespace GroupSpec

/-- A group. -/
def read (n : Node) : Reading GroupSpec :=
  record d (fun
    | "params" => some fun n g => return { g with params := ← Params.read d n }
    | "tests" => some fun n g => return { g with tests := ← list d (Ref.read d) n }
    | "groups" => some fun n g => return { g with groups := ← list d (Ref.read d) n }
    | _ => none) {} n

end GroupSpec

namespace Binding

/-- A parameter of a definition. -/
def read (n : Node) : Reading Binding :=
  record d (fun
    | "value" => some fun n b => return { b with value := ← optionalText d n }
    | "env" => some fun n b => return { b with env := ← optionalText d n }
    | "description" => some fun n b => return { b with description := ← optionalText d n }
    | _ => none) {} n

end Binding

namespace Definition

/-- A definition; its name must be given. -/
def read (n : Node) : Reading Definition := do
  let (name, r) ← record d (fun
    | "name" => some fun n (_, r) => return (some (← text d n), r)
    | "version" => some fun n (m, r) => return (m, { r with version := ← text d n })
    | "tests" => some fun n (m, r) => return (m, { r with tests := ← table d (TestSpec.read d) n })
    | "groups" => some fun n (m, r) =>
      return (m, { r with groups := ← table d (GroupSpec.read d) n })
    | "params" => some fun n (m, r) => return (m, { r with params := ← table d (Binding.read d) n })
    | _ => none) ((none : Option String), ({ name := "" } : Definition)) n
  return { r with name := ← given name }

/-- The definition that a document holds. -/
def ofDocument? (d : Document) : Option Definition := ((read d d.root).run d.aliasLimit).map (·.1)

/-- The definition in a text. -/
def ofYaml? (bytes : List UInt8) : Option Definition :=
  (Document.ofBytes? bytes).bind ofDocument?

end Definition

end TestOrchestrator
