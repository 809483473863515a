import TestOrchestrator.Json.Number
import TestOrchestrator.Text.Utf8
/-!
# Reading JSON

* `Json.read? bs` is the value that the bytes are the text of; white space may surround it.

The grammar is that of RFC 8259. A string or a number that has the grammar but no meaning is
`Json.unreadable`, so the text around it can still be read.
-/

namespace TestOrchestrator.Json

/-! ## Bytes -/

/-- Space, tab, line feed and carriage return. -/
def isSpace (b : UInt8) : Bool := b = 0x20 || b = 0x09 || b = 0x0A || b = 0x0D

/-- A decimal digit. -/
def isDigit (b : UInt8) : Bool := 0x30 ≤ b && b ≤ 0x39

/-- The character of an ASCII byte. -/
def ascii (b : UInt8) : Char := Char.ofNat b.toNat

/-- The value of a hexadecimal digit. -/
def hexValue? (b : UInt8) : Option Nat :=
  if isDigit b then some (b.toNat - 48)
  else if 0x41 ≤ b && b ≤ 0x46 then some (b.toNat - 55)
  else if 0x61 ≤ b && b ≤ 0x66 then some (b.toNat - 87)
  else none

/-! ## Strings -/

/-- A piece of a string: a byte that stands for itself, or a UTF-16 unit given by its number. -/
inductive Piece where
  | byte (b : UInt8)
  | unit (n : Nat)

/-- The bytes that the pieces stand for. Two units that are the halves of a character are one
character; a half alone stands for nothing. -/
def Piece.bytes? : List Piece → Option (List UInt8)
  | [] => some []
  | .byte b :: ps => (bytes? ps).map (b :: ·)
  | .unit n :: ps =>
    if 0xDC00 ≤ n && n ≤ 0xDFFF then none
    else if 0xD800 ≤ n && n ≤ 0xDBFF then
      match ps with
      | .unit m :: ps =>
        if 0xDC00 ≤ m && m ≤ 0xDFFF then
          let c := Char.ofNat (0x10000 + (n - 0xD800) * 1024 + (m - 0xDC00))
          (bytes? ps).map (String.utf8EncodeChar c ++ ·)
        else none
      | _ => none
    else (bytes? ps).map (String.utf8EncodeChar (Char.ofNat n) ++ ·)

/-- The byte that a character after a backslash stands for. -/
def escape? (b : UInt8) : Option UInt8 :=
  match ascii b with
  | '"' => some 0x22
  | '\\' => some 0x5C
  | '/' => some 0x2F
  | 'b' => some 0x08
  | 'f' => some 0x0C
  | 'n' => some 0x0A
  | 'r' => some 0x0D
  | 't' => some 0x09
  | _ => none

/-- The pieces of a string up to its closing quote, and the bytes after that. -/
def pieces? : List UInt8 → Option (List Piece × List UInt8)
  | [] => none
  | b :: bs =>
    if b = 0x22 then some ([], bs)
    else if b = 0x5C then
      match bs with
      | [] => none
      | e :: rest =>
        if e = 0x75 then
          match rest with
          | w :: x :: y :: z :: rest =>
            match hexValue? w, hexValue? x, hexValue? y, hexValue? z with
            | some w, some x, some y, some z =>
              (pieces? rest).map fun (ps, rest) =>
                (.unit (((w * 16 + x) * 16 + y) * 16 + z) :: ps, rest)
            | _, _, _, _ => none
          | _ => none
        else
          match escape? e with
          | some b => (pieces? rest).map fun (ps, rest) => (.byte b :: ps, rest)
          | none => none
    else if b < 0x20 then none
    else (pieces? bs).map fun (ps, rest) => (.byte b :: ps, rest)

/-- The text of pieces, if they have one. -/
def Piece.text? (ps : List Piece) : Option String :=
  ((bytes? ps).bind Text.Utf8.decode?).map String.ofList

/-! ## Numbers -/

/-- The digits at the start of the bytes, and what follows them. -/
def digits : List UInt8 → List Char × List UInt8
  | [] => ([], [])
  | b :: bs =>
    if isDigit b then
      let (ds, rest) := digits bs
      (ascii b :: ds, rest)
    else ([], b :: bs)

/-- The part after the point, if there is one; it has at least one digit. -/
def fraction? : List UInt8 → Option (List Char × List UInt8)
  | 0x2E :: bs =>
    match digits bs with
    | ([], _) => none
    | r => some r
  | bs => some ([], bs)

/-- The exponent, if there is one; it has at least one digit. -/
def exponent? : List UInt8 → Option (Option (Bool × List Char) × List UInt8)
  | b :: bs =>
    if b = 0x65 || b = 0x45 then
      let (neg, bs) :=
        match bs with
        | 0x2D :: bs => (true, bs)
        | 0x2B :: bs => (false, bs)
        | bs => (false, bs)
      match digits bs with
      | ([], _) => none
      | (ds, rest) => some (some (neg, ds), rest)
    else some (none, b :: bs)
  | [] => some (none, [])

/-- A number without its sign. A zero at the front has no digit after it. -/
def number? (neg : Bool) (bs : List UInt8) : Option (Number × List UInt8) := do
  let (whole, bs) ←
    match digits bs with
    | ([], _) => none
    | ('0' :: _ :: _, _) => none
    | r => some r
  let (fraction, bs) ← fraction? bs
  let (exponent, bs) ← exponent? bs
  return (⟨neg, whole, fraction, exponent⟩, bs)

/-! ## Values -/

/-- The bytes after a word. -/
def afterWord? : List Char → List UInt8 → Option (List UInt8)
  | [], bs => some bs
  | c :: cs, b :: bs => if ascii b = c then afterWord? cs bs else none
  | _ :: _, [] => none

/-- An object, or what stands for nothing when one of its names does. -/
def ofMembers (members : List (Option String × Json)) : Json :=
  match members.mapM fun (name, j) => name.map (·, j) with
  | some ms => .obj ms
  | none => .unreadable

mutual

/-- A value at the start of the bytes, after white space. -/
def value? : Nat → List UInt8 → Option (Json × List UInt8)
  | 0, _ => none
  | fuel + 1, bs =>
    match bs.dropWhile isSpace with
    | [] => none
    | b :: bs =>
      match ascii b with
      | '"' => (pieces? bs).map fun (ps, rest) =>
          ((Piece.text? ps).elim Json.unreadable Json.str, rest)
      | '[' =>
        match bs.dropWhile isSpace with
        | 0x5D :: rest => some (.arr [], rest)
        | bs => (items? fuel bs).map fun (js, rest) => (.arr js, rest)
      | '\x7b' =>
        match bs.dropWhile isSpace with
        | 0x7D :: rest => some (.obj [], rest)
        | bs => (members? fuel bs).map fun (ms, rest) => (ofMembers ms, rest)
      | 'n' => (afterWord? ['u', 'l', 'l'] bs).map (Json.null, ·)
      | 't' => (afterWord? ['r', 'u', 'e'] bs).map (Json.bool true, ·)
      | 'f' => (afterWord? ['a', 'l', 's', 'e'] bs).map (Json.bool false, ·)
      | '-' => (number? true bs).map fun (n, rest) => (n.value?.getD .unreadable, rest)
      | _ => (number? false (b :: bs)).map fun (n, rest) => (n.value?.getD .unreadable, rest)

/-- The items of an array up to its closing bracket; there is at least one. -/
def items? : Nat → List UInt8 → Option (List Json × List UInt8)
  | 0, _ => none
  | fuel + 1, bs => do
    let (j, bs) ← value? fuel bs
    match bs.dropWhile isSpace with
    | 0x2C :: bs => (items? fuel bs).map fun (js, rest) => (j :: js, rest)
    | 0x5D :: rest => some ([j], rest)
    | _ => none

/-- The members of an object up to its closing brace; there is at least one. -/
def members? : Nat → List UInt8 → Option (List (Option String × Json) × List UInt8)
  | 0, _ => none
  | fuel + 1, bs =>
    match bs.dropWhile isSpace with
    | 0x22 :: bs => do
      let (ps, bs) ← pieces? bs
      let name := Piece.text? ps
      match bs.dropWhile isSpace with
      | 0x3A :: bs => do
        let (j, bs) ← value? fuel bs
        match bs.dropWhile isSpace with
        | 0x2C :: bs => (members? fuel bs).map fun (ms, rest) => ((name, j) :: ms, rest)
        | 0x7D :: rest => some ([(name, j)], rest)
        | _ => none
      | _ => none
    | _ => none

end

/-- The value that the bytes are the text of. Every step of the reading takes a byte, so their
number is fuel enough. -/
def read? (bs : List UInt8) : Option Json := do
  let (j, rest) ← value? (2 * bs.length + 2) bs
  if rest.all isSpace then some j else none

end TestOrchestrator.Json
