import TestOrchestrator.Decimal.Binary64
import TestOrchestrator.Decimal.Layout
/-!
# JSON values

* `Json` is a value; the members of an object keep the order and the repetitions of the text.
* `Json.unreadable` is what has the grammar of a value but stands for nothing: a string with half a
  surrogate pair or with bytes that are no UTF-8, a number beyond the doubles, an object with such a
  name. It does no harm where nobody looks at it.
* `Json.render` is the text of a value on one line, `Json.pretty` the text on many lines with two
  spaces for each level.
-/

namespace TestOrchestrator

open Decimal

/-- A JSON value. -/
inductive Json where
  | null
  | bool (b : Bool)
  | int (n : Int)
  | float (x : Binary64)
  | str (s : String)
  | arr (items : List Json)
  | obj (members : List (String × Json))
  | unreadable

namespace Json

/-! ## The text of a value -/

/-- Doubles have a sign before every exponent. What is not finite has no text of its own. -/
def numbers : Layout := ⟨16, -5, true, "null", "null", "null"⟩

/-- One of the sixteen digits. -/
def hexDigit (n : Nat) : Char := (Nat.toDigits 16 (n % 16)).headD '0'

/-- A character inside quotes. -/
def escapeChar (c : Char) : List Char :=
  if c = '"' then ['\\', '"']
  else if c = '\\' then ['\\', '\\']
  else if c.toNat < 0x20 then
    match c.toNat with
    | 8 => ['\\', 'b']
    | 9 => ['\\', 't']
    | 10 => ['\\', 'n']
    | 12 => ['\\', 'f']
    | 13 => ['\\', 'r']
    | n => ['\\', 'u', '0', '0', hexDigit (n / 16), hexDigit n]
  else [c]

/-- A string with its quotes. -/
def quote (s : String) : List Char := '"' :: s.toList.flatMap escapeChar ++ ['"']

/-- The text of a value that holds no others. -/
def renderLeaf : Json → List Char
  | null => ['n', 'u', 'l', 'l']
  | bool true => ['t', 'r', 'u', 'e']
  | bool false => ['f', 'a', 'l', 's', 'e']
  | int n => (if n < 0 then ['-'] else []) ++ digitsOf n.natAbs
  | float x => (numbers.render x).toList
  | str s => quote s
  | _ => ['n', 'u', 'l', 'l']

mutual

/-- The text of a value on one line. -/
def renderChars : Json → List Char
  | arr items => '[' :: renderItems items ++ [']']
  | obj members => '\x7b' :: renderMembers members ++ ['\x7d']
  | j => renderLeaf j

/-- The items of an array with commas between. -/
def renderItems : List Json → List Char
  | [] => []
  | [j] => renderChars j
  | j :: k :: js => renderChars j ++ ',' :: renderItems (k :: js)

/-- The members of an object with commas between. -/
def renderMembers : List (String × Json) → List Char
  | [] => []
  | [(name, j)] => quote name ++ ':' :: renderChars j
  | (name, j) :: m :: ms => quote name ++ ':' :: renderChars j ++ ',' :: renderMembers (m :: ms)

end

/-- The text of a value on one line. -/
def render (j : Json) : String := String.ofList (renderChars j)

/-- The start of a new line at a level. -/
def newLine (level : Nat) : List Char := '\n' :: List.replicate (2 * level) ' '

mutual

/-- The text of a value on many lines; `level` is that of the line it starts on. -/
def prettyChars (level : Nat) : Json → List Char
  | arr [] => ['[', ']']
  | arr (j :: js) =>
    '[' :: newLine (level + 1) ++ prettyChars (level + 1) j ++ prettyItems (level + 1) js ++
      newLine level ++ [']']
  | obj [] => ['\x7b', '\x7d']
  | obj ((name, j) :: ms) =>
    '\x7b' :: newLine (level + 1) ++ quote name ++ ':' :: ' ' :: prettyChars (level + 1) j ++
      prettyMembers (level + 1) ms ++ newLine level ++ ['\x7d']
  | j => renderLeaf j

/-- The items after the first one. -/
def prettyItems (level : Nat) : List Json → List Char
  | [] => []
  | j :: js => ',' :: newLine level ++ prettyChars level j ++ prettyItems level js

/-- The members after the first one. -/
def prettyMembers (level : Nat) : List (String × Json) → List Char
  | [] => []
  | (name, j) :: ms =>
    ',' :: newLine level ++ quote name ++ ':' :: ' ' :: prettyChars level j ++
      prettyMembers level ms

end

/-- The text of a value on many lines. -/
def pretty (j : Json) : String := String.ofList (prettyChars 0 j)

end Json

end TestOrchestrator
