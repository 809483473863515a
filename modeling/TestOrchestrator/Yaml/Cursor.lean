/-!
# Places in a text

* `Cursor` is a place in a text: what is still to be read, and the line and column reached.
* `Cursor.skip`, `Cursor.skipWhile` and `Cursor.skipBreak` move it on; only the last one goes to a
  new line.
* `isSpace`, `isBreak`, `isGap`, … are the classes of characters that YAML tells apart.
-/

namespace TestOrchestrator.Yaml

/-! ## Characters -/

/-- The characters that a text may hold. -/
def isAllowed (c : Char) : Bool :=
  let n := c.toNat
  n = 9 || n = 10 || n = 13 || (0x20 ≤ n && n ≤ 0x7E) || n = 0x85 || (0xA0 ≤ n && n ≤ 0xD7FF) ||
    (0xE000 ≤ n && n ≤ 0xFFFD) || 0x10000 ≤ n

/-- Space and tab. -/
def isSpace (c : Char) : Bool := c = ' ' || c = '\t'

/-- The characters that end a line. -/
def isBreak (c : Char) : Bool :=
  c = '\n' || c = '\r' || c.toNat = 0x85 || c.toNat = 0x2028 || c.toNat = 0x2029

/-- A space, a tab, a line break or the end of the text. -/
def isGap : Option Char → Bool
  | none => true
  | some c => isSpace c || isBreak c

/-- The characters of names. -/
def isWord (c : Char) : Bool :=
  ('0' ≤ c && c ≤ '9') || ('A' ≤ c && c ≤ 'Z') || ('a' ≤ c && c ≤ 'z') || c = '_' || c = '-'

/-- The brackets, the comma and the braces. -/
def isFlowMark (c : Char) : Bool :=
  c = ',' || c = '[' || c = ']' || c = '\x7b' || c = '\x7d'

/-- The mark at the start of a text that tells its encoding. -/
def byteOrderMark : Char := Char.ofNat 0xFEFF

/-! ## Places -/

/-- A place in a text. -/
structure Cursor where
  rest : List Char
  line : Nat := 0
  column : Nat := 0
  /-- How many characters were read. -/
  index : Nat := 0

namespace Cursor

/-- The next character. -/
def head (c : Cursor) : Option Char := c.rest.head?

/-- The character `n` places on. -/
def peek (c : Cursor) (n : Nat) : Option Char := c.rest[n]?

/-- Whether the next character is `d`. -/
def startsWith (c : Cursor) (d : Char) : Bool := c.rest.head? = some d

/-- Moves on by `n` characters of the same line. -/
def skip (c : Cursor) (n : Nat) : Cursor :=
  { c with rest := c.rest.drop n, column := c.column + n, index := c.index + n }

/-- The characters of a kind from here on. -/
def takeWhile (p : Char → Bool) (c : Cursor) : List Char := c.rest.takeWhile p

/-- Moves past the characters of a kind. -/
def skipWhile (p : Char → Bool) (c : Cursor) : Cursor := c.skip (c.takeWhile p).length

/-- Moves past a line break; a carriage return with a line feed is one. -/
def skipBreak (c : Cursor) : Cursor :=
  match c.rest with
  | '\r' :: '\n' :: rest => { rest, line := c.line + 1, index := c.index + 2 }
  | _ :: rest => { rest, line := c.line + 1, index := c.index + 1 }
  | [] => c

/-- What a line break is read as: the separators of lines and paragraphs are kept, all others are
line feeds. Nothing at the end of the text. -/
def breakText (c : Cursor) : List Char :=
  match c.rest with
  | d :: _ => if d.toNat = 0x2028 || d.toNat = 0x2029 then [d] else ['\n']
  | [] => []

/-- Whether three dashes or three dots stand here at the start of a line, with a gap after them. -/
def atDocumentMark (c : Cursor) (d : Char) : Bool :=
  c.column = 0 && c.peek 0 = some d && c.peek 1 = some d && c.peek 2 = some d && isGap (c.peek 3)

/-- Whether a mark between documents stands here. -/
def atAnyDocumentMark (c : Cursor) : Bool := c.atDocumentMark '-' || c.atDocumentMark '.'

end Cursor

end TestOrchestrator.Yaml
