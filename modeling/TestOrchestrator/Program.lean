import TestOrchestrator.Json.Reader
import TestOrchestrator.Suite.Json
import TestOrchestrator.Text.Blank
import TestOrchestrator.Text.Utf8
/-!
# What programs print, as suites

* `Output` is what a program printed and how it ended.
* `Output.printed?` is the suite that a program printed in JSON as its whole output.
* `Output.verdict` is the one case that stands for any other output. It goes by the exit status:
  zero passes, another one fails, and a program that was killed is an error.
* `Output.toSuite` is the first of these if there is one, else the second.
-/

namespace TestOrchestrator

/-- How a program ended. -/
inductive Ending where
  | exited (status : Nat)
  /-- A signal ended it. -/
  | killed
  deriving DecidableEq

/-- What a program printed and how it ended. -/
structure Output where
  stdout : List UInt8
  stderr : List UInt8
  ending : Ending
  deriving DecidableEq

namespace Output

/-! ## Printed suites -/

/-- The text on the standard output without blanks at its ends, if it is well-formed and begins with
an opening brace. -/
def candidate? (o : Output) : Option (List Char) :=
  match Text.Utf8.decode? o.stdout with
  | none => none
  | some cs =>
    let cs := Text.trim cs
    if cs.head? = some '\x7b' then some cs else none

/-- The suite on the standard output. -/
def printed? (o : Output) : Option Suite := do
  let cs ← o.candidate?
  let j ← Json.read? (Text.Utf8.encode cs)
  Suite.ofJson? j

/-- A suite without a name gets that of the test, one without a time the time that the program
took. -/
def adopt (name : String) (elapsed : Duration) (s : Suite) : Suite :=
  let s := s.orNamed name
  if s.time.isZero then { s with time := elapsed } else s

/-! ## Verdicts -/

/-- Bytes as a text without blanks at its ends, unless nothing is left. -/
def said? (bytes : List UInt8) : Option String :=
  match Text.trim (Text.Utf8.decodeLossy bytes) with
  | [] => none
  | cs => some (String.ofList cs)

/-- The one case that stands for an output. -/
def verdict (name : String) (elapsed : Duration) (o : Output) : Case :=
  let detail := said? o.stderr
  let c : Case := { name, time := elapsed, systemOut := said? o.stdout }
  match o.ending with
  | .exited 0 => c
  | .exited status =>
    { c with failure := some ⟨"exited with status " ++ toString status, detail⟩ }
  | .killed => { c with error := some ⟨"terminated by signal", detail⟩ }

/-- The suite that an output stands for. -/
def toSuite (now : Timestamp) (name : String) (elapsed : Duration) (o : Output) : Suite :=
  match o.printed? with
  | some s => adopt name elapsed s
  | none => .ofCases now name [o.verdict name elapsed]

end Output

end TestOrchestrator
