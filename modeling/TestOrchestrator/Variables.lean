import TestOrchestrator.OsText
import TestOrchestrator.Table
import TestOrchestrator.Text.Split
/-!
# The variables of a process

A process is given its environment as a list of entries `NAME=VALUE`. Names and values are bytes;
nothing keeps two entries from having the same name, or a name from holding an equals sign.

* `Environ.value? e name` is the value of a variable as a process finds it: what stands behind the
  name and the sign in the first entry that begins with them.
* `Variables.text? env name` is that value as a text. A value that is not well-formed counts as
  unset.
* `Environ.table` is the variables one by one, `Environ.ofTable` the entries for such variables.
-/

namespace TestOrchestrator

open Text (behind? cut?)

/-- The variables of a process: the value of each that is set. -/
abbrev Variables := String → Option OsText

/-- The value of a variable, if it is a text. -/
def Variables.text? (env : Variables) (name : String) : Option String :=
  (env name).bind OsText.text?

/-- The entries of an environment. -/
structure Environ where
  entries : List OsText

namespace Environ

/-- What the entry of a variable begins with. -/
def mark (name : String) : List UInt8 := Text.Utf8.encode name.toList ++ [Byte.equals]

/-- The value of a variable. -/
def value? (e : Environ) : Variables := fun name =>
  e.entries.findSome? fun t => (behind? (mark name) t.bytes).map OsText.mk

/-- The name and the value of an entry. The first byte belongs to the name, even if it is an equals
sign. -/
def split? (t : OsText) : Option (String × OsText) :=
  match t.bytes with
  | [] => none
  | b :: bs => do
    let (name, value) ← cut? Byte.equals bs
    return (← OsText.text? ⟨b :: name⟩, ⟨value⟩)

/-- The variables one by one; the last entry of a name counts. Names that are no texts are left out:
the program hands their variables on to others and does nothing else with them. -/
def table (e : Environ) : Table OsText := .ofList (e.entries.filterMap split?)

/-- The entries for some variables. -/
def ofTable (t : Table OsText) : Environ where
  entries := t.entries.map fun (name, value) => ⟨mark name ++ value.bytes⟩

end Environ

end TestOrchestrator
