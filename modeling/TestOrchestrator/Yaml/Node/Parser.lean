import TestOrchestrator.Yaml.Node
import TestOrchestrator.Yaml.Token.Lexer
/-!
# From tokens to a document

* `Parse` is a reading of tokens that can fail.
* `Node.read` reads a node in one of three places; `Document.ofTokens?` reads the only document of a
  text.
* `Document.ofBytes?` is the document of a text in UTF-8.

What is left out is blank: an entry after a dash, a key after a question mark, a value after a colon
and the whole document.
-/

namespace TestOrchestrator.Yaml

/-- What is left to read, and what the tags and anchors before stand for. -/
structure ParseState where
  tokens : List Token
  /-- The handles that the document itself declares. -/
  handles : List (List Char × List UInt8) := []
  /-- The numbers of the anchors' names. -/
  names : List (List Char × Nat) := []

/-- A reading of tokens. -/
abbrev Parse := StateT ParseState Option

namespace Parse

/-- The next token. -/
def peek : Parse (Option Token) := return (← get).tokens.head?

/-- Moves past the next token. -/
def skip : Parse Unit := modify fun s => { s with tokens := s.tokens.drop 1 }

/-- Moves past a token that must come next. -/
def expect (t : Token) : Parse Unit := do
  if (← peek) = some t then skip else failure

/-- Moves past a token if it comes next, and says whether it did. -/
def accept (t : Token) : Parse Bool := do
  if (← peek) = some t then skip; return true else return false

/-- Whether one of some tokens comes next. -/
def before (ts : List Token) : Parse Bool := return (← peek).any ts.contains

/-! ## What stands before a node -/

/-- Reads an anchor and a tag in either order. -/
def marks : Parse (Option (List Char) × Option (List Char × List UInt8)) := do
  match (← get).tokens with
  | .anchor a :: .tag h s :: _ => skip; skip; return (some a, some (h, s))
  | .tag h s :: .anchor a :: _ => skip; skip; return (some a, some (h, s))
  | .anchor a :: _ => skip; return (some a, none)
  | .tag h s :: _ => skip; return (none, some (h, s))
  | _ => return (none, none)

/-- The two handles that need no declaration. -/
def commonHandles : List (List Char × List UInt8) :=
  [(['!'], Text.Utf8.encode ['!']), (['!', '!'], Text.Utf8.encode "tag:yaml.org,2002:".toList)]

/-- The tag that a handle and a suffix stand for. -/
def resolveTag (h : List Char) (suffix : List UInt8) : Parse (List UInt8) := do
  if h = [] then return suffix
  else
    match ((← get).handles ++ commonHandles).lookup h with
    | some expansion => return expansion ++ suffix
    | none => failure

/-- Gives the name of an anchor its number: the number of the names before it. -/
def declare (name : List Char) : Parse Nat :=
  modifyGet fun s =>
    let n := s.names.length
    (n, { s with names := (name, n) :: s.names.filter (·.1 ≠ name) })

/-- Reads what stands before a node, and whether there was anything. -/
def properties : Parse (Properties × Bool) := do
  let (name, mark) ← marks
  let tag ← mark.mapM fun (h, s) => resolveTag h s
  let anchor ← name.mapM declare
  return ({ anchor, tag }, name.isSome || mark.isSome)

/-! ## Entries

Each of these reads the entries of one kind of collection, given how to read a node. -/

/-- Reads a node unless one of some tokens comes next. -/
def orBlank (ends : List Token) (node : Parse Node) : Parse Node := do
  if ← before ends then return Node.blank {} else node

/-- The entries of a block of dashes, and the mark behind it. -/
def blockItems (node : Parse Node) : Nat → Parse (List Node)
  | 0 => failure
  | fuel + 1 => do
    if ← accept .blockEntry then
      let item ← orBlank [.blockEntry, .blockEnd] node
      return item :: (← blockItems node fuel)
    else
      expect .blockEnd
      return []

/-- The entries of a block of dashes that is not indented more than the key before it. -/
def bareItems (node : Parse Node) : Nat → Parse (List Node)
  | 0 => failure
  | fuel + 1 => do
    if ← accept .blockEntry then
      let item ← orBlank [.blockEntry, .key, .value, .blockEnd] node
      return item :: (← bareItems node fuel)
    else return []

/-- The entries of a block of keys, and the mark behind it. -/
def blockEntries (node : Parse Node) : Nat → Parse (List (Node × Node))
  | 0 => failure
  | fuel + 1 => do
    if ← accept .key then
      let key ← orBlank [.key, .value, .blockEnd] node
      let value ←
        if ← accept .value then orBlank [.key, .value, .blockEnd] node else pure (Node.blank {})
      return (key, value) :: (← blockEntries node fuel)
    else
      expect .blockEnd
      return []

/-- A mapping of one entry inside brackets, from behind its question mark. Where no key follows, the
next token is passed over. -/
def pair (node : Parse Node) : Parse Node := do
  let key ←
    if ← before [.value, .flowEntry, .flowSequenceEnd] then do skip; pure (Node.blank {}) else node
  let value ←
    if ← accept .value then orBlank [.flowEntry, .flowSequenceEnd] node else pure (Node.blank {})
  return .mapping {} [(key, value)]

/-- The entries between brackets, and the closing one. -/
def flowItems (node : Parse Node) : Nat → Bool → Parse (List Node)
  | 0, _ => failure
  | fuel + 1, first => do
    if ← accept .flowSequenceEnd then return []
    else
      if !first then expect .flowEntry
      if ← accept .flowSequenceEnd then return []
      else
        let item ← if ← accept .key then pair node else node
        return item :: (← flowItems node fuel false)

/-- The entries between braces, and the closing one. -/
def flowEntries (node : Parse Node) : Nat → Bool → Parse (List (Node × Node))
  | 0, _ => failure
  | fuel + 1, first => do
    if ← accept .flowMappingEnd then return []
    else
      if !first then expect .flowEntry
      if ← accept .flowMappingEnd then return []
      else if ← accept .key then
        let key ← orBlank [.value, .flowEntry, .flowMappingEnd] node
        let value ←
          if ← accept .value then orBlank [.flowEntry, .flowMappingEnd] node
          else pure (Node.blank {})
        return (key, value) :: (← flowEntries node fuel false)
      else
        let key ← node
        return (key, Node.blank {}) :: (← flowEntries node fuel false)

end Parse

/-! ## Nodes -/

/-- Where a node stands. -/
inductive Place where
  /-- An entry of a block, or the whole document. -/
  | block
  /-- A key or value of a block, where dashes need no indentation. -/
  | blockValue
  | flow
  deriving DecidableEq

open Parse in
/-- Reads a node. Nodes are nested no deeper than there are tokens. -/
def Node.read : Nat → Place → Parse Node
  | 0, _ => failure
  | fuel + 1, place => do
    if let some (.aliasTo name) ← peek then
      skip
      match (← get).names.lookup name with
      | some a => return .aliasTo a
      | none => failure
    else
      let (props, any) ← properties
      let count := (← get).tokens.length + 1
      match ← peek with
      | some (.scalar style text) => skip; return .scalar props style text
      | some .flowSequenceStart =>
        skip
        return .sequence props (← flowItems (read fuel .flow) count true)
      | some .flowMappingStart =>
        skip
        return .mapping props (← flowEntries (read fuel .flow) count true)
      | next =>
        if place = .blockValue && next = some .blockEntry then
          return .sequence props (← bareItems (read fuel .block) count)
        else if place ≠ .flow && next = some .blockSequenceStart then
          skip
          return .sequence props (← blockItems (read fuel .block) count)
        else if place ≠ .flow && next = some .blockMappingStart then
          skip
          return .mapping props (← blockEntries (read fuel .blockValue) count)
        else if any then return Node.blank props
        else failure

/-! ## Documents -/

namespace Document

open Parse

/-- Reads the directives before a document: at most one version, which must be known, and each
handle once. -/
def directives : Nat → Bool → Parse Unit
  | 0, _ => failure
  | fuel + 1, versioned => do
    match ← peek with
    | some (.version major minor) =>
      if !versioned && major = 1 && (minor = 1 || minor = 2) then
        skip
        directives fuel true
      else failure
    | some (.tagHandle h expansion) =>
      if ((← get).handles.lookup h).isSome then failure
      else
        skip
        modify fun s => { s with handles := (h, expansion) :: s.handles }
        directives fuel versioned
    | _ => return ()

/-- Whether a token belongs to the frame of documents. -/
def isFrame : Token → Bool
  | .version .. | .tagHandle .. | .documentStart | .documentEnd => true
  | _ => false

/-- Reads the only document of a text. -/
def read : Parse Document := do
  let count := (← get).tokens.length + 1
  let node ←
    match ← peek with
    | none => pure (Node.blank {})
    | some .documentEnd => failure
    | some t =>
      if isFrame t then do
        directives count false
        expect .documentStart
        if (← peek).all isFrame then pure (Node.blank {}) else Node.read count .block
      else Node.read count .block
  if (← get).tokens.all (· = .documentEnd) then return ofNode node else failure

/-- The document that tokens stand for. -/
def ofTokens? (tokens : List Token) : Option Document := (read.run { tokens }).map (·.1)

/-- The document of a text. -/
def ofText? (text : List Char) : Option Document := (Token.ofText? text).bind ofTokens?

/-- The document of a text in UTF-8. -/
def ofBytes? (bytes : List UInt8) : Option Document := (Text.Utf8.decode? bytes).bind ofText?

end Document

end TestOrchestrator.Yaml
