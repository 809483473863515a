import TestOrchestrator.Text.Utf8
/-!
# Texts of the operating system

Paths, the words of a command and the values of variables are bytes, which need not be those of a
text.

* `OsText.ofText s` is the bytes of a text; a text stands for its own bytes where bytes are wanted.
* `OsText.text? t` is the text that well-formed bytes are those of.
* `OsText.shown t` is the text that messages show, with U+FFFD for every malformed part.
-/

namespace TestOrchestrator

/-! ## Bytes with a meaning -/

namespace Byte

@[match_pattern] abbrev nul : UInt8 := 0

@[match_pattern] abbrev dot : UInt8 := 46

@[match_pattern] abbrev slash : UInt8 := 47

@[match_pattern] abbrev colon : UInt8 := 58

@[match_pattern] abbrev equals : UInt8 := 61

@[match_pattern] abbrev tilde : UInt8 := 126

end Byte

/-! ## Texts -/

/-- A text of the operating system. -/
structure OsText where
  bytes : List UInt8
  deriving DecidableEq

namespace OsText

/-- The bytes of a text. -/
def ofText (s : String) : OsText := ⟨Text.Utf8.encode s.toList⟩

instance : Coe String OsText := ⟨ofText⟩

instance : Append OsText := ⟨fun t u => ⟨t.bytes ++ u.bytes⟩⟩

/-- The text that the bytes are those of, if they are well-formed. -/
def text? (t : OsText) : Option String := (Text.Utf8.decode? t.bytes).map String.ofList

/-- The text that messages show. -/
def shown (t : OsText) : String := String.ofList (Text.Utf8.decodeLossy t.bytes)

theorem bytes_eq_nil_iff {t : OsText} : t.bytes = [] ↔ t = "" := by
  cases t
  rw [OsText.mk.injEq]
  rfl

end OsText

end TestOrchestrator
