import TestOrchestrator.Text.Utf8
import TestOrchestrator.Yaml.Scalar
/-!
# Tokens

The words of a text and the marks between them.

* `Token` is a word or a mark. The marks around blocks, which show in the text only as indentation,
  are tokens as well.
* `Token.anchor?`, `Token.tag?` and `Token.directive?` read the tokens that have a form of their
  own.
-/

namespace TestOrchestrator.Yaml

/-- A word or a mark. -/
inductive Token where
  | documentStart
  | documentEnd
  | version (major minor : Nat)
  /-- What a handle of tags stands for. -/
  | tagHandle (handle : List Char) (expansion : List UInt8)
  | blockSequenceStart
  | blockMappingStart
  | blockEnd
  | flowSequenceStart
  | flowSequenceEnd
  | flowMappingStart
  | flowMappingEnd
  | blockEntry
  | flowEntry
  | key
  | value
  | aliasTo (name : List Char)
  | anchor (name : List Char)
  | tag (handle : List Char) (suffix : List UInt8)
  | scalar (style : Style) (text : List Char)
  deriving DecidableEq

namespace Token

/-! ## Anchors -/

/-- The name of an anchor or alias, from behind its mark. -/
def anchor? (c : Cursor) : Option (List Char × Cursor) :=
  let name := c.takeWhile isWord
  let c := c.skip name.length
  let ends := isGap c.head || ['?', ':', ',', ']', '\x7d', '%', '@', '\x60'].any c.startsWith
  if name ≠ [] && ends then some (name, c) else none

/-! ## Tags -/

/-- The characters of a tag; in a `wide` place the comma and the brackets are among them. -/
def isTagChar (wide : Bool) (c : Char) : Bool :=
  isWord c ||
    [';', '/', '?', ':', '@', '&', '=', '+', '$', '.', '%', '!', '~', '*', '\'', '(', ')'].contains
      c ||
    (wide && (c = ',' || c = '[' || c = ']'))

/-- Reads a byte written as a percent sign and two digits. -/
def percentByte? (c : Cursor) : Option (UInt8 × Cursor) :=
  match c.rest with
  | '%' :: a :: b :: _ => do
    let x ← Scalar.hexDigit? a
    let y ← Scalar.hexDigit? b
    return (UInt8.ofNat (x * 16 + y), c.skip 3)
  | _ => none

/-- The number of bytes that follow the first one of a character. -/
def tailLength? (b : UInt8) : Option Nat :=
  if b < 0x80 then some 0
  else if b < 0xC0 then none
  else if b < 0xE0 then some 1
  else if b < 0xF0 then some 2
  else if b < 0xF8 then some 3
  else none

/-- Reads `n` more bytes of a character. -/
def percentTail? : Nat → Cursor → Option (List UInt8 × Cursor)
  | 0, c => some ([], c)
  | n + 1, c => do
    let (b, c) ← percentByte? c
    if b < 0x80 || 0xC0 ≤ b then none
    else
      let (bs, c) ← percentTail? n c
      return (b :: bs, c)

/-- Reads the bytes of one character, each written with a percent sign. -/
def percentChar? (c : Cursor) : Option (List UInt8 × Cursor) := do
  let (b, c) ← percentByte? c
  let (bs, c) ← percentTail? (← tailLength? b) c
  return (b :: bs, c)

/-- Reads the characters of a tag. -/
def tagBytes? (wide : Bool) : Nat → List UInt8 → Cursor → Option (List UInt8 × Cursor)
  | 0, _, _ => none
  | fuel + 1, bytes, c =>
    match c.head with
    | none => some (bytes, c)
    | some d =>
      if d = '%' then
        match percentChar? c with
        | some (bs, c) => tagBytes? wide fuel (bytes ++ bs) c
        | none => none
      else if isTagChar wide d then tagBytes? wide fuel (bytes ++ Text.Utf8.encode [d]) (c.skip 1)
      else some (bytes, c)

/-- Reads the characters of a tag; at least one must be there. The tag ends before a zero byte. -/
def tagText? (wide : Bool) (c : Cursor) : Option (List UInt8 × Cursor) := do
  let (bytes, c') ← tagBytes? wide (c.rest.length + 1) [] c
  if bytes = [] then none else some (bytes.takeWhile (· ≠ 0), c')

/-- A word between exclamation marks, the second of which may be missing; `c` is at the first
one. -/
def handle (c : Cursor) : List Char × Cursor :=
  let word := (c.skip 1).takeWhile isWord
  let c := c.skip (1 + word.length)
  if c.startsWith '!' then ('!' :: word ++ ['!'], c.skip 1) else ('!' :: word, c)

/-- Reads a tag at its exclamation mark; a lone one has no handle. -/
def tag? (flow : Bool) (c : Cursor) : Option (Token × Cursor) := do
  let (token, c) ←
    if c.peek 1 = some '<' then do
      let (suffix, c) ← tagText? true (c.skip 2)
      if c.startsWith '>' then some (Token.tag [] suffix, c.skip 1) else none
    else
      let (h, c') := handle c
      if 1 < h.length && h.getLast? = some '!' then do
        let (suffix, c) ← tagText? false c'
        some (Token.tag h suffix, c)
      else do
        let (rest, c) ← tagBytes? false (c'.rest.length + 1) [] c'
        let suffix := (Text.Utf8.encode (h.drop 1) ++ rest).takeWhile (· ≠ 0)
        some (if suffix = [] then Token.tag [] (Text.Utf8.encode ['!']) else Token.tag ['!'] suffix,
          c)
  if isGap c.head || (flow && c.startsWith ',') then some (token, c) else none

/-! ## Directives -/

/-- Reads a number of at most nine digits. -/
def versionNumber? (c : Cursor) : Option (Nat × Cursor) :=
  let ds := c.takeWhile fun d => '0' ≤ d && d ≤ '9'
  if ds = [] || 9 < ds.length then none
  else some (ds.foldl (fun v d => v * 10 + (d.toNat - 48)) 0, c.skip ds.length)

/-- Reads what follows the name of the directive for the version. -/
def version? (c : Cursor) : Option (Token × Cursor) := do
  let (major, c) ← versionNumber? c
  if c.startsWith '.' then
    let (minor, c) ← versionNumber? (c.skip 1)
    return (.version major minor, c)
  else none

/-- Reads what follows the name of the directive for a handle. -/
def tagHandle? (c : Cursor) : Option (Token × Cursor) :=
  if c.startsWith '!' then
    let (h, c) := handle c
    if (h = ['!'] || (1 < h.length && h.getLast? = some '!')) && c.head.any isSpace then do
      let (expansion, c) ← tagText? true (c.skipWhile isSpace)
      if isGap c.head then some (.tagHandle h expansion, c) else none
    else none
  else none

/-- Reads a directive from behind its percent sign to the end of its line. -/
def directive? (c : Cursor) : Option (Token × Cursor) := do
  let name := c.takeWhile isWord
  let c := c.skip name.length
  if isGap c.head then
    let c := c.skipWhile isSpace
    let (token, c) ←
      if name = ['Y', 'A', 'M', 'L'] then version? c
      else if name = ['T', 'A', 'G'] then tagHandle? c
      else none
    return (token, ← Scalar.restOfLine? c)
  else none

end Token

end TestOrchestrator.Yaml
