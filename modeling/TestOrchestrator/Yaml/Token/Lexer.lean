import TestOrchestrator.Yaml.Token
/-!
# From a text to its tokens

* `Lexer` is how far a text was read: the place, the brackets that are open, the columns of the
  blocks around it, and where a key may have begun.
* `Lexer.next?` reads one token, and those that its indentation implies.
* `Token.ofText?` is the list of all tokens, if the text has one.

That a token was a key shows only at the colon behind it. A place where a key may begin is kept
until then, with the number of its token, and the token for the key is put in there afterwards.
-/

namespace TestOrchestrator.Yaml

/-- A place where a key may have begun. -/
structure Candidate where
  /-- Nothing but a key can stand there. -/
  required : Bool
  /-- How many tokens come before it. -/
  number : Nat
  cursor : Cursor

/-- A text as far as it was read. -/
structure Lexer where
  cursor : Cursor
  /-- How many brackets and braces are open. -/
  depth : Nat := 0
  /-- The column of the innermost block, `-1` outside. -/
  indent : Int := -1
  /-- The columns of the blocks around it. -/
  outerIndents : List Int := []
  /-- Whether a key may begin here. -/
  keyAllowed : Bool := true
  candidate : Option Candidate := none
  /-- The candidates outside of each open bracket. -/
  outerCandidates : List (Option Candidate) := []
  /-- The tokens so far, the last one first. -/
  tokens : List Token := []
  /-- How many tokens there are. -/
  count : Nat := 0

namespace Lexer

/-- Whether some bracket is open. -/
def inFlow (l : Lexer) : Bool := 0 < l.depth

/-- Adds a token. -/
def push (l : Lexer) (t : Token) : Lexer := { l with tokens := t :: l.tokens, count := l.count + 1 }

/-- Puts a token in after the first `n`. -/
def insert (l : Lexer) (n : Nat) (t : Token) : Lexer :=
  let later := l.count - n
  { l with tokens := l.tokens.take later ++ t :: l.tokens.drop later, count := l.count + 1 }

/-- Moves on by `n` characters. -/
def skip (l : Lexer) (n : Nat) : Lexer := { l with cursor := l.cursor.skip n }

/-! ## Gaps -/

/-- Moves past gaps and comments. Where a key may begin, a tab is no gap. A new line outside of
brackets may begin with a key. -/
def skipGaps : Nat → Lexer → Lexer
  | 0, l => l
  | fuel + 1, l =>
    let c := l.cursor
    let c := if c.column = 0 && c.startsWith byteOrderMark then c.skip 1 else c
    let c := c.skipWhile fun d => d = ' ' || (d = '\t' && (l.inFlow || !l.keyAllowed))
    let c := if c.startsWith '#' then c.skipWhile (!isBreak ·) else c
    if c.head.any isBreak then
      skipGaps fuel { l with cursor := c.skipBreak, keyAllowed := l.keyAllowed || !l.inFlow }
    else { l with cursor := c }

/-! ## Keys -/

/-- A key takes at most one line and 1024 characters. -/
def outdated (c : Cursor) (k : Candidate) : Bool :=
  k.cursor.line < c.line || k.cursor.index + 1024 < c.index

/-- A candidate that may still be a key; there must not be an outdated one where a key is
required. -/
def fresh? (c : Cursor) : Option Candidate → Option (Option Candidate)
  | none => some none
  | some k => if outdated c k then (if k.required then none else some none) else some (some k)

/-- Drops the candidates that are outdated. -/
def dropOutdated? (l : Lexer) : Option Lexer := do
  let candidate ← fresh? l.cursor l.candidate
  let outerCandidates ← l.outerCandidates.mapM (fresh? l.cursor)
  return { l with candidate, outerCandidates }

/-- Drops the candidate; it must not be required. -/
def dropCandidate? (l : Lexer) : Option Lexer :=
  if l.candidate.any (·.required) then none else some { l with candidate := none }

/-- Notes that a key may begin here. -/
def mayBeKey? (l : Lexer) : Option Lexer :=
  if l.keyAllowed then do
    let required := !l.inFlow && l.indent = (l.cursor.column : Int)
    let l ← l.dropCandidate?
    return { l with candidate := some ⟨required, l.count, l.cursor⟩ }
  else some l

/-! ## Indentation -/

/-- Opens a block at a column that is deeper than the block around it; its mark goes in after the
first `n` tokens. -/
def openBlock (l : Lexer) (column n : Nat) (t : Token) : Lexer :=
  if !l.inFlow && l.indent < (column : Int) then
    { l.insert n t with indent := column, outerIndents := l.indent :: l.outerIndents }
  else l

/-- Closes the blocks that are deeper than a column. -/
def closeBlocks (column : Int) : List Int → Lexer → Lexer
  | [], l => l
  | i :: is, l =>
    if !l.inFlow && column < l.indent then
      closeBlocks column is { l.push .blockEnd with indent := i, outerIndents := is }
    else l

/-- Closes all blocks before a mark that stands outside of them. -/
def closeAll? (l : Lexer) : Option Lexer := do
  let l ← (closeBlocks (-1) l.outerIndents l).dropCandidate?
  return { l with keyAllowed := false }

/-! ## Tokens -/

/-- Reads an opening bracket. -/
def openFlow? (l : Lexer) (t : Token) : Option Lexer := do
  let l ← l.mayBeKey?
  let l := l.push t
  return { l.skip 1 with
    depth := l.depth + 1
    candidate := none
    outerCandidates := l.candidate :: l.outerCandidates
    keyAllowed := true }

/-- Reads a closing bracket. -/
def closeFlow? (l : Lexer) (t : Token) : Option Lexer := do
  let l ← l.dropCandidate?
  let l := { (l.push t).skip 1 with keyAllowed := false }
  return match l.outerCandidates with
    | [] => l
    | candidate :: outerCandidates => { l with depth := l.depth - 1, candidate, outerCandidates }

/-- Reads a comma. -/
def comma? (l : Lexer) : Option Lexer := do
  let l ← l.dropCandidate?
  return { (l.push .flowEntry).skip 1 with keyAllowed := true }

/-- Reads the dash before an entry of a block. -/
def dash? (l : Lexer) : Option Lexer :=
  if l.inFlow || l.keyAllowed then do
    let l ← (l.openBlock l.cursor.column l.count .blockSequenceStart).dropCandidate?
    return { (l.push .blockEntry).skip 1 with keyAllowed := true }
  else none

/-- Reads the question mark before a key. -/
def question? (l : Lexer) : Option Lexer :=
  if l.inFlow || l.keyAllowed then do
    let l ← (l.openBlock l.cursor.column l.count .blockMappingStart).dropCandidate?
    return { (l.push .key).skip 1 with keyAllowed := !l.inFlow }
  else none

/-- Reads the colon before a value. If a key may have begun, that was one. -/
def colon? (l : Lexer) : Option Lexer :=
  match l.candidate with
  | some k =>
    let l := l.insert k.number .key
    let l := l.openBlock k.cursor.column k.number .blockMappingStart
    some { (l.push .value).skip 1 with candidate := none, keyAllowed := false }
  | none =>
    if l.inFlow || l.keyAllowed then
      let l := l.openBlock l.cursor.column l.count .blockMappingStart
      some { (l.push .value).skip 1 with keyAllowed := !l.inFlow }
    else none

/-- Adds a token that may be a key; no other key begins behind it on its line. -/
def word? (l : Lexer) (t : Token) (c : Cursor) : Option Lexer := do
  let l ← l.mayBeKey?
  return { l.push t with cursor := c, keyAllowed := false }

/-- Reads an anchor or alias. -/
def anchor? (l : Lexer) (token : List Char → Token) : Option Lexer := do
  let (name, c) ← Token.anchor? (l.cursor.skip 1)
  l.word? (token name) c

/-- Reads a tag. -/
def tag? (l : Lexer) : Option Lexer := do
  let (token, c) ← Token.tag? l.inFlow l.cursor
  l.word? token c

/-- Reads quoted text. -/
def quoted? (l : Lexer) (double : Bool) : Option Lexer := do
  let (text, c) ← Scalar.quoted? double (l.cursor.skip 1)
  l.word? (.scalar (if double then .doubleQuoted else .singleQuoted) text) c

/-- Reads plain text. If a line break follows, a key may come next. -/
def plain? (l : Lexer) : Option Lexer := do
  let (text, c, broken) ← Scalar.plain? l.inFlow (l.indent + 1).toNat l.cursor
  let l ← l.word? (.scalar .plain text) c
  return { l with keyAllowed := broken }

/-- Reads a block of text. -/
def block? (l : Lexer) (literal : Bool) : Option Lexer := do
  let l ← l.dropCandidate?
  let (text, c) ← Scalar.block? literal l.indent (l.cursor.skip 1)
  return { l.push (.scalar (if literal then .literal else .folded) text) with
    cursor := c
    keyAllowed := true }

/-- Reads a directive. -/
def directive? (l : Lexer) : Option Lexer := do
  let l ← l.closeAll?
  let (token, c) ← Token.directive? (l.cursor.skip 1)
  return { l.push token with cursor := c }

/-- Reads a mark between documents. -/
def documentMark? (l : Lexer) (t : Token) : Option Lexer := do
  let l ← l.closeAll?
  return (l.push t).skip 3

/-- Whether plain text may begin with a character before another one. -/
def beginsPlain (flow : Bool) (c : Char) (next : Option Char) : Bool :=
  if c = '-' then !next.any isSpace
  else if c = '?' || c = ':' then !flow && !isGap next
  else !isSpace c && !isBreak c && !isFlowMark c &&
    !(['#', '&', '*', '!', '|', '>', '\'', '"', '%', '@', '\x60'].contains c)

/-- Reads a token that begins with a character. -/
def begin? (l : Lexer) (d : Char) : Option Lexer :=
  let next := l.cursor.peek 1
  if l.cursor.column = 0 && d = '%' then l.directive?
  else if l.cursor.atDocumentMark '-' then l.documentMark? .documentStart
  else if l.cursor.atDocumentMark '.' then l.documentMark? .documentEnd
  else if d = '[' then l.openFlow? .flowSequenceStart
  else if d = '\x7b' then l.openFlow? .flowMappingStart
  else if d = ']' then l.closeFlow? .flowSequenceEnd
  else if d = '\x7d' then l.closeFlow? .flowMappingEnd
  else if d = ',' then l.comma?
  else if d = '-' && isGap next then l.dash?
  else if d = '?' && (l.inFlow || isGap next) then l.question?
  else if d = ':' && (l.inFlow || isGap next) then l.colon?
  else if d = '*' then l.anchor? .aliasTo
  else if d = '&' then l.anchor? .anchor
  else if d = '!' then l.tag?
  else if d = '|' && !l.inFlow then l.block? true
  else if d = '>' && !l.inFlow then l.block? false
  else if d = '\'' then l.quoted? false
  else if d = '"' then l.quoted? true
  else if beginsPlain l.inFlow d next then l.plain?
  else none

/-- Reads all tokens. -/
def run? : Nat → Lexer → Option Lexer
  | 0, _ => none
  | fuel + 1, l => do
    let l ← (skipGaps (l.cursor.rest.length + 1) l).dropOutdated?
    let l := closeBlocks l.cursor.column l.outerIndents l
    match l.cursor.head with
    | some d => run? fuel (← l.begin? d)
    | none => l.closeAll?

end Lexer

/-- The tokens of a text. -/
def Token.ofText? (text : List Char) : Option (List Token) :=
  if text.all isAllowed then
    (Lexer.run? (text.length + 1) { cursor := { rest := text } }).map (·.tokens.reverse)
  else none

end TestOrchestrator.Yaml
