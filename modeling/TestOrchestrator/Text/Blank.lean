/-!
# Blank characters

The white space of texts, by the Unicode property `White_Space`, and texts without it at their ends.

* `isBlank c` says that `c` is white space.
* `trim cs` is `cs` without the blanks at both ends; `trimEnd cs` only drops those at the end.
-/

namespace TestOrchestrator.Text

/-- The characters with the property `White_Space`. -/
def isBlank (c : Char) : Bool :=
  let n := c.toNat
  (9 ≤ n && n ≤ 13) || n = 0x20 || n = 0x85 || n = 0xA0 || n = 0x1680 ||
    (0x2000 ≤ n && n ≤ 0x200A) || n = 0x2028 || n = 0x2029 || n = 0x202F || n = 0x205F ||
    n = 0x3000

/-- Drops the blanks at the end. -/
def trimEnd : List Char → List Char
  | [] => []
  | c :: cs =>
    match trimEnd cs with
    | [] => if isBlank c then [] else [c]
    | r => c :: r

/-- Drops the blanks at both ends. -/
def trim (cs : List Char) : List Char := trimEnd (cs.dropWhile isBlank)

/-- A text without the blanks at its ends. -/
def trimmed (s : String) : String := String.ofList (trim s.toList)

/-- A text of blanks only, the empty one included. -/
def allBlank (s : String) : Bool := s.toList.all isBlank

end TestOrchestrator.Text
