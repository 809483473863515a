import TestOrchestrator.Text.Utf8
import TestOrchestrator.Yaml.Value.Quoting
/-!
# The text of a value

Collections are written as blocks, an empty one as a pair of brackets or braces.

* `Value.hasForm` says which values can be written: a tag must not stand directly before another
  tag, and the one key of a mapping that has no tag must be neither tagged nor a mapping of one
  entry.
* `Value.render?` is the text of a value that has one.

What is written behind a dash, a question mark or a colon begins with a space and ends with a line
break.
-/

namespace TestOrchestrator.Yaml

open Decimal

namespace Value

/-! ## Which values can be written -/

/-- A tagged value, or a mapping of one entry. -/
def isTagLike : Value → Bool
  | tagged .. => true
  | map [_] => true
  | _ => false

mutual

/-- Whether a value can be written; `under` tells that a tag stands before it. -/
def hasForm (under : Bool) : Value → Bool
  | tagged _ v => !under && hasForm true v
  | seq items => itemsHaveForm items
  | map entries =>
    (under || !(match entries with
      | [e] => isTagLike e.1
      | _ => false)) && entriesHaveForm entries
  | _ => true

/-- Whether the items of a sequence can be written. -/
def itemsHaveForm : List Value → Bool
  | [] => true
  | v :: vs => hasForm false v && itemsHaveForm vs

/-- Whether the entries of a mapping can be written. -/
def entriesHaveForm : Entries → Bool
  | [] => true
  | (k, v) :: es => hasForm false k && hasForm false v && entriesHaveForm es

end

/-! ## Leaves -/

/-- Doubles have no sign before an exponent that is not negative. -/
def numbers : Layout := ⟨16, -5, false, ".inf", "-.inf", ".nan"⟩

/-- What a leaf says, before it is quoted. -/
def leafText : Value → List Char
  | null => ['n', 'u', 'l', 'l']
  | bool true => ['t', 'r', 'u', 'e']
  | bool false => ['f', 'a', 'l', 's', 'e']
  | int n => (if n < 0 then ['-'] else []) ++ digitsOf n.natAbs
  | float x => (numbers.render x).toList
  | str s => s.toList
  | _ => []

/-- The text of a leaf or of an empty collection; further lines are indented by `n`. -/
def leaf (n : Nat) : Value → List Char
  | str s => Quoting.write n s.toList
  | seq _ => ['[', ']']
  | map _ => ['\x7b', '\x7d']
  | v => leafText v

/-- A line ends with a break; one that is there already is enough. -/
def endLine (cs : List Char) : List Char :=
  if cs.getLast?.any isBreak then cs else cs ++ ['\n']

/-! ## Tags -/

/-- The characters that need no percent sign in a tag. -/
def isTagSafe (c : Char) : Bool :=
  isWord c ||
    [';', '/', '?', ':', '@', '&', '=', '+', '$', ',', '.', '~', '*', '\'', '(', ')', '[',
      ']'].contains c

/-- The characters of a tag; of all others, every byte is written as a number. -/
def tagText (cs : List Char) : List Char :=
  cs.flatMap fun c =>
    if isTagSafe c then [c]
    else (Text.Utf8.encode [c]).flatMap fun b => '%' :: Quoting.hex 2 b.toNat

/-- A tag by its name. -/
def tagMark (name : String) : List Char :=
  match name.toList with
  | ['!'] => '!' :: '<' :: tagText ['!'] ++ ['>']
  | '!' :: cs => '!' :: tagText cs
  | cs => '!' :: tagText cs

/-- The bytes of a tag before any is written as a number. -/
def tagSize (name : String) : Nat :=
  match name.toList with
  | ['!'] => 1
  | '!' :: cs => 1 + (Text.Utf8.encode cs).length
  | cs => 1 + (Text.Utf8.encode cs).length

/-! ## Keys -/

/-- Whether a value can stand before a colon: it has one line and at most 128 bytes. -/
def isSimpleKey : Value → Bool
  | tagged name v => leafFits v (tagSize name)
  | v => leafFits v 0
where
  /-- The same for a value whose tag has a number of bytes. -/
  leafFits (v : Value) (size : Nat) : Bool :=
    match v with
    | seq items => items.isEmpty && size ≤ 128
    | map entries => entries.isEmpty && size ≤ 128
    | tagged .. => false
    | v =>
      !(leafText v).any isBreak && size + (Text.Utf8.encode (leafText v)).length ≤ 128

/-- A value before a colon. -/
def simpleKey : Value → List Char
  | tagged name v => tagMark name ++ ' ' :: leaf 0 v
  | v => leaf 0 v

/-! ## Blocks -/

/-- Where a value is written: the columns that its parts go to. -/
structure Column where
  mapping : Nat
  sequence : Nat
  /-- The column of a sequence behind a tag. -/
  taggedSequence : Nat
  /-- The column of the further lines of a scalar. -/
  scalar : Nat
  /-- Whether a block without a tag begins on the line of the mark before it. -/
  sameLine : Bool

namespace Column

/-- The whole document. -/
def root : Column := ⟨0, 0, 0, 2, true⟩

/-- Behind a dash in column `n`. -/
def dash (n : Nat) : Column := ⟨n + 2, n + 2, n + 2, n + 2, true⟩

/-- Behind a question mark or a colon that stands alone in column `n`. -/
def mark (n : Nat) : Column := ⟨n + 2, n + 2, n, n + 2, true⟩

/-- Behind a key in column `n`; a sequence is not indented more than the key. -/
def value (n : Nat) : Column := ⟨n + 2, n, n, n + 2, false⟩

end Column

/-- A tag behind a mark. -/
def spacedTag (tag : Option String) : List Char :=
  match tag with
  | some name => ' ' :: tagMark name
  | none => []

/-- What stands before the first line of a block in column `n`. -/
def blockStart (c : Column) (tag : Option String) (n : Nat) : List Char :=
  if tag.isNone && c.sameLine then [' '] else spacedTag tag ++ '\n' :: Quoting.pad n

mutual

/-- A value behind a mark, with the tag before it. -/
def write (c : Column) (tag : Option String) : Value → List Char
  | tagged name v => write c (some name) v
  | seq (v :: vs) =>
    let n := if tag.isSome then c.taggedSequence else c.sequence
    blockStart c tag n ++ '-' :: write (.dash n) none v ++ writeItems n vs
  | map ((k, v) :: es) =>
    blockStart c tag c.mapping ++
      (if isSimpleKey k then simpleKey k ++ ':' :: write (.value c.mapping) none v
        else
          '?' :: write (.mark c.mapping) none k ++
            Quoting.pad c.mapping ++ ':' :: write (.mark c.mapping) none v) ++
      writeEntries c.mapping es
  | v => spacedTag tag ++ ' ' :: endLine (leaf c.scalar v)

/-- The items after the first one. -/
def writeItems (n : Nat) : List Value → List Char
  | [] => []
  | v :: vs => Quoting.pad n ++ '-' :: write (.dash n) none v ++ writeItems n vs

/-- The entries after the first one. -/
def writeEntries (n : Nat) : Entries → List Char
  | [] => []
  | (k, v) :: es =>
    Quoting.pad n ++
      (if isSimpleKey k then simpleKey k ++ ':' :: write (.value n) none v
        else '?' :: write (.mark n) none k ++ Quoting.pad n ++ ':' :: write (.mark n) none v) ++
      writeEntries n es

end

/-- The text of a value as a document. -/
def render? (v : Value) : Option (List Char) :=
  if hasForm false v then some ((write .root none v).drop 1) else none

end Value

end TestOrchestrator.Yaml
