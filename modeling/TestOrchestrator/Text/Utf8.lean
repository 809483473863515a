/-!
# Text as bytes

UTF-8, read in two ways.

* `scan bs` cuts bytes into characters and malformed parts. A malformed part is as long as the
  longest start of a character that it holds, and at least one byte.
* `decode? bs` is the text of well-formed bytes; `decodeLossy bs` puts U+FFFD for every malformed
  part.
* `encode cs` is the bytes of a text.
-/

namespace TestOrchestrator.Text.Utf8

/-- A byte that continues a character. -/
def isTail (b : UInt8) : Bool := 0x80 ≤ b && b ≤ 0xBF

/-- The bytes that may come second in a character of three bytes that begins with `a`. -/
def secondOfThree (a b : UInt8) : Bool :=
  if a = 0xE0 then 0xA0 ≤ b && b ≤ 0xBF
  else if a = 0xED then 0x80 ≤ b && b ≤ 0x9F
  else isTail b

/-- The bytes that may come second in a character of four bytes that begins with `a`. -/
def secondOfFour (a b : UInt8) : Bool :=
  if a = 0xF0 then 0x90 ≤ b && b ≤ 0xBF
  else if a = 0xF4 then 0x80 ≤ b && b ≤ 0x8F
  else isTail b

/-- The six value bits of a continuing byte. -/
def low (b : UInt8) : Nat := b.toNat % 64

/-- Characters in order, `none` standing for each malformed part. -/
def scan : List UInt8 → List (Option Char)
  | [] => []
  | a :: bs =>
    if a < 0x80 then some (Char.ofNat a.toNat) :: scan bs
    else if 0xC2 ≤ a && a ≤ 0xDF then
      match bs with
      | [] => [none]
      | b :: bs' =>
        if isTail b then some (Char.ofNat (a.toNat % 32 * 64 + low b)) :: scan bs'
        else none :: scan (b :: bs')
    else if 0xE0 ≤ a && a ≤ 0xEF then
      match bs with
      | [] => [none]
      | b :: bs' =>
        if secondOfThree a b then
          match bs' with
          | [] => [none]
          | c :: bs'' =>
            if isTail c then
              some (Char.ofNat ((a.toNat % 16 * 64 + low b) * 64 + low c)) :: scan bs''
            else none :: scan (c :: bs'')
        else none :: scan (b :: bs')
    else if 0xF0 ≤ a && a ≤ 0xF4 then
      match bs with
      | [] => [none]
      | b :: bs' =>
        if secondOfFour a b then
          match bs' with
          | [] => [none]
          | c :: bs'' =>
            if isTail c then
              match bs'' with
              | [] => [none]
              | d :: bs''' =>
                if isTail d then
                  some (Char.ofNat
                    (((a.toNat % 8 * 64 + low b) * 64 + low c) * 64 + low d)) :: scan bs'''
                else none :: scan (d :: bs''')
            else none :: scan (c :: bs'')
        else none :: scan (b :: bs')
    else none :: scan bs

/-- The text of well-formed bytes. -/
def decode? (bs : List UInt8) : Option (List Char) := (scan bs).mapM id

/-- The text with U+FFFD for every malformed part. -/
def decodeLossy (bs : List UInt8) : List Char := (scan bs).map (·.getD (Char.ofNat 0xFFFD))

/-- The bytes of a text. -/
def encode (cs : List Char) : List UInt8 := cs.flatMap String.utf8EncodeChar

theorem encode_append (cs ds : List Char) : encode (cs ++ ds) = encode cs ++ encode ds := by
  simp [encode]

end TestOrchestrator.Text.Utf8
