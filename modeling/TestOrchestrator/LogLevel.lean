/-!
# Log levels

* `LogLevel.ofWord?` reads the name of a level in any case; `LogLevel.word` writes it in capitals.
* `Text.lowerAscii s` is `s` with its ASCII capitals made small. It decides whether a word is a
  given ASCII keyword in any case: the only character outside ASCII whose lower case is an ASCII
  letter is the Kelvin sign, and no keyword of this library holds a `k`.
-/

namespace TestOrchestrator

/-- The text with its ASCII capitals made small. -/
def Text.lowerAscii (s : String) : String := String.ofList (s.toList.map Char.toLower)

/-- How much is logged, from the most to the least. -/
inductive LogLevel where
  | trace
  | debug
  | info
  | warn
  | error
  deriving DecidableEq, Repr

namespace LogLevel

/-- The level of a word. -/
def ofWord? (s : String) : Option LogLevel :=
  match Text.lowerAscii s with
  | "trace" => some trace
  | "debug" => some debug
  | "info" => some info
  | "warn" => some warn
  | "warning" => some warn
  | "error" => some error
  | _ => none

/-- The word for a level. -/
def word : LogLevel → String
  | trace => "TRACE"
  | debug => "DEBUG"
  | info => "INFO"
  | warn => "WARN"
  | error => "ERROR"

/-- Whether a log of this level holds what is noted for finding errors. -/
def showsDebug : LogLevel → Bool
  | trace => true
  | debug => true
  | _ => false

end LogLevel

end TestOrchestrator
