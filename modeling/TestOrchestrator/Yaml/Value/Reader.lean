import TestOrchestrator.Yaml.Node.Parser
import TestOrchestrator.Yaml.Value.Plain
/-!
# From documents to values

* `Reading` counts how often an alias may still be followed; `Document.follow` follows one.
* `Tag.name?` is the name of a tag that a value keeps. The common tags for null, truth values and
  numbers force a scalar to be one; all other tags of their kind make it a string.
* `Value.ofDocument?` is the value of a document. At most 128 collections may be inside one another,
  and the keys of a mapping must be distinct.
-/

namespace TestOrchestrator.Yaml

/-- A reading of nodes that knows how many aliases may still be followed. -/
abbrev Reading := StateT Nat Option

/-- The node that a node stands for. -/
def Document.follow (d : Document) (n : Node) : Reading Node := do
  match n with
  | .aliasTo a =>
    let left ← get
    if left = 0 then failure
    else
      set (left - 1)
      match d.anchor? a with
      | some n => return n
      | none => failure
  | n => return n

namespace Tag

/-- The common tag of a name. -/
def common (name : String) : List UInt8 := Text.Utf8.encode ("tag:yaml.org,2002:" ++ name).toList

/-- Whether a tag belongs to one document only: its first byte is an exclamation mark. -/
def isLocal (tag : List UInt8) : Bool := tag.head? = some 33

/-- A name without an exclamation mark in front, unless nothing else is left. -/
def bare : List Char → List Char
  | '!' :: c :: cs => c :: cs
  | cs => cs

/-- The name of a tag that a value keeps. -/
def name? (tag : List UInt8) : Option String :=
  match tag with
  | [] => none
  | b :: rest =>
    if b = 33 then
      (Text.Utf8.decode? (if rest = [] then [b] else rest)).map fun cs => String.ofList (bare cs)
    else none

/-- Whether the tag of a scalar leaves it to the text what it stands for. -/
def isOpen (tag : Option (List UInt8)) : Bool :=
  match tag with
  | none => true
  | some tag => isLocal tag

end Tag

namespace Value

/-- A value under the name of its tag. -/
def withTag (name : Option String) (v : Value) : Value :=
  match name with
  | some name => .tagged name v
  | none => v

/-- The value that a common tag forces a text to be, if the tag is one that forces. -/
def forced? (tag : List UInt8) (cs : List Char) : Option (Option Value) :=
  let s := String.ofList cs
  if tag = Tag.common "bool" then some ((Plain.bool? s).map .bool)
  else if tag = Tag.common "int" then
    some ((Plain.whole? cs).bind fun n => if Plain.width n = .fits then some (.int n) else none)
  else if tag = Tag.common "float" then some ((Plain.double? cs).map .float)
  else if tag = Tag.common "null" then some (if Plain.isNull s then some .null else none)
  else none

/-- The value of a scalar. -/
def ofScalar? (tag : Option (List UInt8)) (style : Style) (cs : List Char) : Option Value :=
  match tag.bind (forced? · cs) with
  | some v => v
  | none =>
    if Tag.isOpen tag && style = .plain then
      (ofPlain? cs).map (withTag (tag.bind Tag.name?))
    else some (withTag (tag.bind Tag.name?) (.str (String.ofList cs)))

/-- The value of a node inside a document; `depth` collections may be inside one another. -/
def read (d : Document) : Nat → Node → Reading Value
  | depth, n => do
    match ← d.follow n with
    | .aliasTo _ => failure
    | .scalar props style text =>
      match ofScalar? props.tag style text with
      | some v => return v
      | none => failure
    | .sequence props items =>
      match depth with
      | 0 => failure
      | depth + 1 =>
        let items ← items.mapM (read d depth)
        return withTag (props.tag.bind Tag.name?) (.seq items)
    | .mapping props entries =>
      match depth with
      | 0 => failure
      | depth + 1 =>
        let entries ← entries.mapM fun e => do return (← read d depth e.1, ← read d depth e.2)
        if distinctKeys entries then
          return withTag (props.tag.bind Tag.name?) (.map entries)
        else failure

/-- How many collections may be inside one another. -/
def maxDepth : Nat := 128

/-- The value of a document. -/
def ofDocument? (d : Document) : Option Value :=
  ((read d maxDepth d.root).run d.aliasLimit).map (·.1)

/-- The value of a text in UTF-8. -/
def ofBytes? (bytes : List UInt8) : Option Value := (Document.ofBytes? bytes).bind ofDocument?

end Value

end TestOrchestrator.Yaml
