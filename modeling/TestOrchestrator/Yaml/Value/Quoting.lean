import TestOrchestrator.Decimal.Layout
import TestOrchestrator.Yaml.Scalar
import TestOrchestrator.Yaml.Value.Plain
/-!
# How a scalar is written

* `Quoting.style s` is the style in which a string is written: plain where that reads back as the
  same string, quoted or as a block otherwise.
* `Quoting.plain`, `Quoting.single`, `Quoting.double` and `Quoting.literal` write a text in a style.
-/

namespace TestOrchestrator.Yaml

open Decimal

namespace Quoting

/-! ## What a text holds -/

/-- The characters that need no escape. -/
def isPrintable (c : Char) : Bool :=
  let n := c.toNat
  n = 10 || (0x20 ≤ n && n ≤ 0x7E) || (0xA0 ≤ n && n ≠ 0xFEFF && n ≠ 0xFFFE && n ≠ 0xFFFF)

/-- A blank, a break or nothing; the character 0 counts as nothing. -/
def isEnd (c : Option Char) : Bool := isGap c || c = some (Char.ofNat 0)

/-- Whether one character that satisfies `p` is followed by one that satisfies `q`. -/
def adjacent (p q : Char → Bool) : List Char → Bool
  | c :: d :: cs => (p c && q d) || adjacent p q (d :: cs)
  | _ => false

/-- The characters that mean something at the start of a text. -/
def isMark (c : Char) : Bool :=
  isFlowMark c || ['#', '&', '*', '!', '|', '>', '\'', '"', '%', '@', '\x60'].contains c

/-- Whether a colon with a gap behind it is in a text. -/
def hasColon : List Char → Bool
  | [] => false
  | c :: cs => (c = ':' && isEnd cs.head?) || hasColon cs

/-- Whether a text would be taken for something else than plain text. -/
def hasMark (cs : List Char) : Bool :=
  (match cs with
    | [] => false
    | c :: ds => isMark c || ((c = '-' || c = '?') && isEnd ds.head?)) ||
  cs.take 3 = ['-', '-', '-'] || cs.take 3 = ['.', '.', '.'] || hasColon cs ||
  adjacent (fun c => isEnd (some c)) (· = '#') cs

/-- Whether a space or a break stands at one end. -/
def hasLooseEnd (cs : List Char) : Bool :=
  let loose (c : Option Char) := c.any fun c => c = ' ' || isBreak c
  loose cs.head? || loose cs.getLast?

/-- Whether a text can be written without quotes. -/
def allowsPlain (cs : List Char) : Bool :=
  cs.all isPrintable && !cs.any isBreak && !hasLooseEnd cs && !hasMark cs

/-- Whether a text can be written between single quotes. -/
def allowsSingle (cs : List Char) : Bool :=
  cs.all isPrintable && !adjacent (· = ' ') isBreak cs && !adjacent isBreak (· = ' ') cs

/-- Whether a text can be written as a block. -/
def allowsBlock (cs : List Char) : Bool :=
  cs.all isPrintable && cs ≠ [] && cs.getLast? ≠ some ' ' && !adjacent (· = ' ') isBreak cs

/-- Whether plain text reads back as a string, and not as digits that only look like a number. -/
def readsAsString (cs : List Char) : Bool :=
  match Value.ofPlain? cs with
  | some (.str _) => !Plain.isOctalLike cs
  | _ => false

/-- The style in which a string is written. -/
def style (cs : List Char) : Style :=
  if cs.contains '\n' then (if allowsBlock cs then .literal else .doubleQuoted)
  else if readsAsString cs && allowsPlain cs then .plain
  else if allowsSingle cs then .singleQuoted
  else .doubleQuoted

/-! ## Writing a text -/

/-- Spaces at the start of a line. -/
def pad (n : Nat) : List Char := List.replicate n ' '

/-- A text whose lines are indented, from a line start or not. Empty lines stay empty. -/
def indented (n : Nat) : Bool → List Char → List Char
  | _, [] => []
  | start, c :: cs =>
    if isBreak c then c :: indented n true cs
    else (if start then pad n else []) ++ c :: indented n false cs

/-- A text between single quotes, where a quote is written twice. -/
def single (n : Nat) (cs : List Char) : List Char :=
  let body := indented n false (cs.flatMap fun c => if c = '\'' then ['\'', '\''] else [c])
  '\'' :: body ++ (if cs.getLast?.any isBreak then pad n else []) ++ ['\'']

/-- The last `k` digits of a number in base 16. -/
def hex (k : Nat) (n : Nat) : List Char :=
  let ds := (Nat.toDigits 16 n).map Char.toUpper
  List.replicate (k - ds.length) '0' ++ ds

/-- A character between double quotes. -/
def escaped (c : Char) : List Char :=
  if c = '"' || c = '\\' then ['\\', c]
  else if isPrintable c && !isBreak c then [c]
  else
    match c.toNat with
    | 0 => ['\\', '0']
    | 7 => ['\\', 'a']
    | 8 => ['\\', 'b']
    | 9 => ['\\', 't']
    | 10 => ['\\', 'n']
    | 11 => ['\\', 'v']
    | 12 => ['\\', 'f']
    | 13 => ['\\', 'r']
    | 27 => ['\\', 'e']
    | 0x85 => ['\\', 'N']
    | 0x2028 => ['\\', 'L']
    | 0x2029 => ['\\', 'P']
    | n =>
      if n ≤ 0xFF then '\\' :: 'x' :: hex 2 n
      else if n ≤ 0xFFFF then '\\' :: 'u' :: hex 4 n
      else '\\' :: 'U' :: hex 8 n

/-- A text between double quotes. -/
def double (cs : List Char) : List Char := '"' :: cs.flatMap escaped ++ ['"']

/-- The marks behind the first one of a block: the indentation if the text begins with a space or
break, and what becomes of the breaks at its end. -/
def blockMarks (cs : List Char) : List Char :=
  (if cs.head?.any fun c => c = ' ' || isBreak c then ['2'] else []) ++
    match cs.reverse with
    | [] => ['-']
    | [c] => if isBreak c then ['+'] else ['-']
    | c :: d :: _ => if !isBreak c then ['-'] else if isBreak d then ['+'] else []

/-- A text as a block. -/
def literal (n : Nat) (cs : List Char) : List Char :=
  '|' :: blockMarks cs ++ '\n' :: indented n true cs

/-- A string in its style. -/
def write (n : Nat) (cs : List Char) : List Char :=
  match style cs with
  | .singleQuoted => single n cs
  | .doubleQuoted => double cs
  | .literal => literal n cs
  | _ => cs

end Quoting

end TestOrchestrator.Yaml
