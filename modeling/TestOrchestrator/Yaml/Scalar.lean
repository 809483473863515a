import TestOrchestrator.Yaml.Cursor
/-!
# The texts of scalars

A scalar is written in one of five styles. Here is what each style stands for, from the place after
its first mark to the place behind it.

* `Scalar.quoted?` reads quoted text; `Scalar.block?` reads the indented lines of a block;
  `Scalar.plain?` reads plain text.

Line breaks are folded: one becomes a space, of several the first is dropped. Every loop takes at
least one character in each round, so the number of characters is fuel enough.
-/

namespace TestOrchestrator.Yaml

/-- How a scalar is written. -/
inductive Style where
  | plain
  | singleQuoted
  | doubleQuoted
  | literal
  | folded
  deriving DecidableEq, Repr

namespace Scalar

/-- What was read, and the place behind it. -/
abbrev Read := List Char × Cursor

/-! ## Gaps between words -/

/-- Spaces and breaks between words. -/
structure Gap where
  /-- The spaces on the line of the word before. -/
  spaces : List Char := []
  /-- The first break. -/
  first : List Char := []
  /-- The other breaks. -/
  more : List Char := []
  /-- A break has come. -/
  broken : Bool := false

/-- What a gap is read as. -/
def Gap.text (g : Gap) : List Char :=
  if g.broken then
    if g.first.head? = some '\n' then (if g.more = [] then [' '] else g.more)
    else g.first ++ g.more
  else g.spaces

/-- Takes a line break into a gap. -/
def Gap.takeBreak (g : Gap) (b : List Char) : Gap :=
  if g.broken then { g with more := g.more ++ b }
  else { g with spaces := [], first := b, broken := true }

/-- The gap from here on. Behind a break, a tab before the column `floor` is refused. -/
def gap? (floor : Nat) : Nat → Gap → Cursor → Option (Gap × Cursor)
  | 0, g, c => some (g, c)
  | fuel + 1, g, c =>
    match c.head with
    | none => some (g, c)
    | some d =>
      if isSpace d then
        if g.broken && c.column < floor && d = '\t' then none
        else if g.broken then gap? floor fuel g (c.skip 1)
        else gap? floor fuel { g with spaces := g.spaces ++ [d] } (c.skip 1)
      else if isBreak d then gap? floor fuel (g.takeBreak c.breakText) c.skipBreak
      else some (g, c)

/-! ## Quoted text -/

/-- The value of a hexadecimal digit. -/
def hexDigit? (c : Char) : Option Nat :=
  if '0' ≤ c && c ≤ '9' then some (c.toNat - 48)
  else if 'A' ≤ c && c ≤ 'F' then some (c.toNat - 55)
  else if 'a' ≤ c && c ≤ 'f' then some (c.toNat - 87)
  else none

/-- The character whose number is written in `n` hexadecimal digits. -/
def hexChar? (n : Nat) (cs : List Char) : Option Char := do
  let ds ← (cs.take n).mapM hexDigit?
  if ds.length = n then
    let v := ds.foldl (fun v d => v * 16 + d) 0
    if (0xD800 ≤ v && v ≤ 0xDFFF) || 0x10FFFF < v then none else some (Char.ofNat v)
  else none

/-- The character after a backslash that stands for one other character. -/
def escape? (c : Char) : Option Char :=
  match c with
  | '0' => some (Char.ofNat 0)
  | 'a' => some (Char.ofNat 7)
  | 'b' => some (Char.ofNat 8)
  | 't' => some '\t'
  | '\t' => some '\t'
  | 'n' => some '\n'
  | 'v' => some (Char.ofNat 11)
  | 'f' => some (Char.ofNat 12)
  | 'r' => some '\r'
  | 'e' => some (Char.ofNat 27)
  | ' ' => some ' '
  | '"' => some '"'
  | '/' => some '/'
  | '\\' => some '\\'
  | 'N' => some (Char.ofNat 0x85)
  | '_' => some (Char.ofNat 0xA0)
  | 'L' => some (Char.ofNat 0x2028)
  | 'P' => some (Char.ofNat 0x2029)
  | _ => none

/-- The number of digits of an escape by number. -/
def hexLength? (c : Char) : Option Nat :=
  match c with
  | 'x' => some 2
  | 'u' => some 4
  | 'U' => some 8
  | _ => none

/-- How a word inside quotes ends. -/
inductive WordEnd where
  /-- At a gap or at the closing quote. -/
  | here
  /-- At a line break that is escaped. -/
  | escapedBreak

/-- A word inside quotes. -/
def quotedWord? (double : Bool) : Nat → List Char → Cursor → Option (List Char × Cursor × WordEnd)
  | 0, _, _ => none
  | fuel + 1, word, c =>
    match c.rest with
    | [] => some (word, c, .here)
    | d :: ds =>
      if isSpace d || isBreak d then some (word, c, .here)
      else if !double && d = '\'' then
        if ds.head? = some '\'' then quotedWord? double fuel (word ++ ['\'']) (c.skip 2)
        else some (word, c, .here)
      else if double && d = '"' then some (word, c, .here)
      else if double && d = '\\' then
        match ds with
        | [] => none
        | e :: es =>
          if isBreak e then some (word, (c.skip 1).skipBreak, .escapedBreak)
          else
            match hexLength? e with
            | some n =>
              match hexChar? n es with
              | some x => quotedWord? double fuel (word ++ [x]) (c.skip (n + 2))
              | none => none
            | none =>
              match escape? e with
              | some x => quotedWord? double fuel (word ++ [x]) (c.skip 2)
              | none => none
      else quotedWord? double fuel (word ++ [d]) (c.skip 1)

/-- The words and gaps inside quotes, up to behind the closing quote. -/
def quotedWords? (double : Bool) : Nat → List Char → Cursor → Option Read
  | 0, _, _ => none
  | fuel + 1, text, c =>
    if c.atAnyDocumentMark || c.head = none then none
    else do
      let (text, c, stop) ← quotedWord? double (c.rest.length + 1) text c
      if c.startsWith (if double then '"' else '\'') then some (text, c.skip 1)
      else
        let start : Gap :=
          match stop with
          | .here => {}
          | .escapedBreak => { broken := true }
        let (g, c) ← gap? 0 (c.rest.length + 1) start c
        quotedWords? double fuel (text ++ g.text) c

/-- Quoted text from behind its opening quote. -/
def quoted? (double : Bool) (c : Cursor) : Option Read :=
  quotedWords? double (c.rest.length + 1) [] c

/-! ## Plain text -/

/-- Whether plain text ends before this character and the one after it. -/
def endsPlain (flow : Bool) (c : Char) (next : Option Char) : Bool :=
  (c = ':' && isGap next) || (flow && isFlowMark c)

/-- Whether a colon stands before a mark that it must not stand before. -/
def strayColon (flow : Bool) (c : Char) (next : Option Char) : Bool :=
  flow && c = ':' && next.any fun d => isFlowMark d || d = '?'

/-- A word of plain text. -/
def plainWord? (flow : Bool) : Nat → List Char → Cursor → Option Read
  | 0, _, _ => none
  | fuel + 1, word, c =>
    match c.rest with
    | [] => some (word, c)
    | d :: ds =>
      if isSpace d || isBreak d then some (word, c)
      else if strayColon flow d ds.head? then none
      else if endsPlain flow d ds.head? then some (word, c)
      else plainWord? flow fuel (word ++ [d]) (c.skip 1)

/-- Plain text as far as it was read: the text, the gap behind it, the place. -/
structure Plain where
  text : List Char
  gap : Gap
  cursor : Cursor

/-- The words of plain text and the gaps between them. In a block, it ends at a line that does not
reach the column `floor`. -/
def plainWords? (flow : Bool) (floor : Nat) : Nat → Plain → Option Plain
  | 0, _ => none
  | fuel + 1, p =>
    let c := p.cursor
    if c.atAnyDocumentMark || c.startsWith '#' then some p
    else do
      let (word, c') ← plainWord? flow (c.rest.length + 1) [] c
      let p : Plain :=
        if word = [] then { p with cursor := c' }
        else ⟨p.text ++ p.gap.text ++ word, {}, c'⟩
      match c'.head with
      | none => some p
      | some d =>
        if isSpace d || isBreak d then
          let (g, c) ← gap? floor (c'.rest.length + 1) p.gap c'
          let p : Plain := { p with gap := g, cursor := c }
          if !flow && c.column < floor then some p else plainWords? flow floor fuel p
        else some p

/-- Plain text, and whether a line break follows it. -/
def plain? (flow : Bool) (floor : Nat) (c : Cursor) : Option (List Char × Cursor × Bool) :=
  (plainWords? flow floor (c.rest.length + 1) ⟨[], {}, c⟩).map fun p =>
    (p.text, p.cursor, p.gap.broken)

/-! ## Blocks -/

/-- What becomes of the line breaks at the end of a block. -/
inductive Chomping where
  | strip
  | clip
  | keep
  deriving DecidableEq

/-- What the first line of a block says. -/
structure Header where
  chomping : Chomping := .clip
  /-- The columns by which the block is indented, if that is given. -/
  indent : Option Nat := none

/-- Reads an indentation; it is not 0. -/
def headerIndent? (c : Cursor) : Option (Option Nat × Cursor) :=
  match c.head with
  | some d =>
    if '0' ≤ d && d ≤ '9' then
      if d = '0' then none else some (some (d.toNat - 48), c.skip 1)
    else some (none, c)
  | none => some (none, c)

/-- Reads a chomping mark. -/
def headerChomping (c : Cursor) : Option Chomping × Cursor :=
  if c.startsWith '+' then (some .keep, c.skip 1)
  else if c.startsWith '-' then (some .strip, c.skip 1)
  else (none, c)

/-- Reads the marks behind the first one, in either order. -/
def header? (c : Cursor) : Option (Header × Cursor) :=
  match headerChomping c with
  | (some chomping, c) => (headerIndent? c).map fun (indent, c) => (⟨chomping, indent⟩, c)
  | (none, c) =>
    match headerIndent? c with
    | none => none
    | some (none, c) => some ({}, c)
    | some (some n, c) =>
      let (chomping, c) := headerChomping c
      some (⟨chomping.getD .clip, some n⟩, c)

/-- Moves to the start of the next line; only spaces and a comment may stand before it. -/
def restOfLine? (c : Cursor) : Option Cursor :=
  let c := c.skipWhile isSpace
  let c := if c.startsWith '#' then c.skipWhile (!isBreak ·) else c
  match c.head with
  | none => some c
  | some d => if isBreak d then some c.skipBreak else none

/-- The breaks before the next line of a block that is not empty, and the deepest column of the
lines between. `indent` is the column of the block, if it is known. -/
def emptyLines? (indent : Option Nat) : Nat → List Char → Nat → Cursor →
    Option (List Char × Nat × Cursor)
  | 0, _, _, _ => none
  | fuel + 1, breaks, deepest, c =>
    let spaces := (c.takeWhile (· = ' ')).length
    let c := c.skip (match indent with
      | some n => min spaces (n - c.column)
      | none => spaces)
    let deepest := max deepest c.column
    let outside :=
      match indent with
      | some n => c.column < n
      | none => true
    if outside && c.startsWith '\t' then none
    else
      match c.head with
      | some d =>
        if isBreak d then emptyLines? indent fuel (breaks ++ c.breakText) deepest c.skipBreak
        else some (breaks, deepest, c)
      | none => some (breaks, deepest, c)

/-- A block as far as it was read: the text, the break behind it and whether its last line began
with a space. -/
structure Lines where
  text : List Char := []
  ending : List Char := []
  spaced : Bool := false

/-- The lines of a block at the column `indent`; `breaks` stand before the next one. -/
def blockLines? (literal : Bool) (indent : Nat) : Nat → Lines → List Char → Cursor →
    Option (Lines × List Char × Cursor)
  | 0, _, _, _ => none
  | fuel + 1, l, breaks, c =>
    if c.column = indent && c.head ≠ none then do
      let spaced := c.head.any isSpace
      let joint :=
        if !literal && l.ending.head? = some '\n' && !l.spaced && !spaced then
          (if breaks = [] then [' '] else [])
        else l.ending
      let line := c.takeWhile (!isBreak ·)
      let c := c.skip line.length
      let l : Lines := ⟨l.text ++ joint ++ breaks ++ line, c.breakText, spaced⟩
      let (breaks, _, c) ← emptyLines? (some indent) (c.rest.length + 2) [] 0 c.skipBreak
      blockLines? literal indent fuel l breaks c
    else some (l, breaks, c)

/-- A block from behind its first mark, in a collection at the column `outer`; it is `-1`
outside. -/
def block? (literal : Bool) (outer : Int) (c : Cursor) : Option Read := do
  let (h, c) ← header? c
  let c ← restOfLine? c
  let given := h.indent.map fun n => (if 0 ≤ outer then outer.toNat else 0) + n
  let (breaks, deepest, c) ← emptyLines? given (c.rest.length + 2) [] 0 c
  let indent := given.getD (max (max deepest (outer + 1).toNat) 1)
  let (l, breaks, c) ← blockLines? literal indent (c.rest.length + 2) {} breaks c
  let ending := if h.chomping = .strip then [] else l.ending
  let tail := if h.chomping = .keep then breaks else []
  return (l.text ++ ending ++ tail, c)

end Scalar

end TestOrchestrator.Yaml
