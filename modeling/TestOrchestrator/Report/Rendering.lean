import TestOrchestrator.Report
import TestOrchestrator.Suite.Json
import TestOrchestrator.Writer
/-!
# Writing reports

* `Report.renderJson` is a report in JSON on many lines: an empty version and the list of errors are
  left out.
* `Xml.escape cs` writes a text inside markup: the five characters of markup become entities,
  control characters other than tab, line feed and carriage return are dropped. `Report.renderXml`
  is a report as a document, one element or tag on a line.
* `Report.emit` writes a closed report in a format, and a line feed after it. A report that is not
  closed is not written at all.
-/

namespace TestOrchestrator

/-! ## JSON -/

namespace Report

/-- A report as a value. -/
def toJson (r : Report) : Json :=
  .obj (("name", .str r.name) ::
    (if r.version = "" then [] else [("version", .str r.version)]) ++ r.counts.members ++
    [("timestamp", r.started.toJson), ("time", r.time.toJson),
      ("testsuite", .arr (r.suites.map Suite.toJson))])

/-- A report as a text. -/
def renderJson (r : Report) : String := r.toJson.pretty

end Report

/-! ## XML -/

namespace Xml

/-- A character of a text. -/
def escapeChar (c : Char) : List Char :=
  match c with
  | '&' => ['&', 'a', 'm', 'p', ';']
  | '<' => ['&', 'l', 't', ';']
  | '>' => ['&', 'g', 't', ';']
  | '"' => ['&', 'q', 'u', 'o', 't', ';']
  | '\'' => ['&', 'a', 'p', 'o', 's', ';']
  | '\n' => ['\n']
  | '\r' => ['\r']
  | '\t' => ['\t']
  | c => if c.toNat < 0x20 then [] else [c]

/-- A text inside markup. -/
def escape (cs : List Char) : List Char := cs.flatMap escapeChar

/-- An attribute with the space before it; the value is written as it is. -/
def rawAttr (name : String) (value : List Char) : List Char :=
  ' ' :: name.toList ++ '=' :: '"' :: value ++ ['"']

/-- An attribute that is a text. -/
def attr (name value : String) : List Char := rawAttr name (escape value.toList)

/-- An attribute that is a number. -/
def number (name : String) (n : Nat) : List Char := rawAttr name (Decimal.digitsOf n)

/-- An attribute that is a duration in seconds. -/
def seconds (name : String) (d : Duration) : List Char := rawAttr name d.threePlaces.toList

/-- An attribute that is a timestamp. -/
def moment (name : String) (t : Timestamp) : List Char := rawAttr name t.render.toList

/-- The spaces at the start of a line. -/
def indent (level : Nat) : List Char := List.replicate (2 * level) ' '

/-- The start of a tag. -/
def openTag (name : String) : List Char := '<' :: name.toList

/-- The tag at the end of an element. -/
def closeTag (name : String) : List Char := '<' :: '/' :: name.toList ++ ['>']

/-- The end of a tag of an element without content. -/
def emptyEnd : List Char := [' ', '/', '>']

/-- The attributes of the four counts. -/
def counts (c : Counts) : List Char :=
  number "tests" c.total ++ number "skipped" c.skipped ++ number "failures" c.failures ++
    number "errors" c.errors

/-- The line of what is said about a case. -/
def note (tag : String) (n : Note) : List Char :=
  indent 3 ++ openTag tag ++ attr "message" n.message ++
    (match n.detail with
      | some detail => '>' :: escape detail.toList ++ closeTag tag
      | none => emptyEnd) ++ ['\n']

/-- The line of a note that may be absent. -/
def note? (tag : String) (n : Option Note) : List Char := n.elim [] (note tag)

/-- The line of what a case printed. -/
def output (text : String) : List Char :=
  indent 3 ++ openTag "system-out" ++ '>' :: escape text.toList ++ closeTag "system-out" ++ ['\n']

/-- What is inside the element of a case. -/
def caseContent (c : Case) : List Char :=
  note? "failure" c.failure ++ note? "error" c.error ++ note? "skipped" c.skipped ++
    c.systemOut.elim [] output

/-- The lines of a case. -/
def case (c : Case) : List Char :=
  indent 2 ++ openTag "testcase" ++ attr "name" c.name ++
    (if c.classname = "" then [] else attr "classname" c.classname) ++
    seconds "time" c.time ++
    (if c.failure.isNone && c.error.isNone && c.skipped.isNone && c.systemOut.isNone then
      emptyEnd
    else '>' :: '\n' :: caseContent c ++ indent 2 ++ closeTag "testcase") ++ ['\n']

/-- The lines of a suite. -/
def suite (s : Suite) : List Char :=
  indent 1 ++ openTag "testsuite" ++ attr "name" s.name ++ counts s.counts ++
    s.timestamp.elim [] (moment "timestamp") ++ seconds "time" s.time ++
    (if s.cases.isEmpty then emptyEnd
    else '>' :: '\n' :: s.cases.flatMap case ++ indent 1 ++ closeTag "testsuite") ++ ['\n']

/-- The first line of a document. -/
def declaration : String := "<?xml version=\"1.0\" encoding=\"UTF-8\"?>\n"

end Xml

namespace Report

/-- A report as a document. -/
def xml (r : Report) : List Char :=
  Xml.declaration.toList ++ Xml.openTag "testsuites" ++ Xml.attr "name" r.name ++
    Xml.counts r.counts ++ Xml.moment "timestamp" r.started ++ Xml.seconds "time" r.time ++
    (if r.suites.isEmpty then Xml.emptyEnd
    else '>' :: '\n' :: r.suites.flatMap Xml.suite ++ Xml.closeTag "testsuites")

/-- A report as a text. -/
def renderXml (r : Report) : String := String.ofList r.xml

/-! ## Emission -/

variable {ω : Type}

/-- The text of a report in a format. -/
def document (r : Report) : Format → String
  | .json => r.renderJson
  | .xml => r.renderXml

/-- Writes a report: the error if there was one, and what the writer took. -/
def emit (r : Report) (f : Format) (w : Writer ω) (s : ω) :
    Except ReportError Unit × Delivery ω :=
  if r.finalized then
    let d := writeAll w [r.document f, "\n"] s
    match d.refusal with
    | some why => (.error (.io why), d)
    | none => (.ok (), d)
  else (.error .notFinalized, ⟨[], none, s⟩)

end Report

end TestOrchestrator
