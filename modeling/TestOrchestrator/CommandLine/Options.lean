import TestOrchestrator.Decimal.Power
import TestOrchestrator.Parameters
import TestOrchestrator.Text.Blank
import TestOrchestrator.Text.Split
/-!
# Options of the command line

* `Opt` is an option; `Opt.ofLong?` and `Opt.ofShort?` know its names.
* `Arguments.give` records one use of an option that has a value, `Arguments.raise` one of a flag.
* `UsageError` is why a command line is not run.
-/

namespace TestOrchestrator.CommandLine

open Text

/-- The options. -/
inductive Opt where
  | dir
  | run
  | group
  | test
  | suite
  | includeDir
  | param
  | format
  | json
  | interpreter
  | verbose
  | logLevel
  | redact
  | labels
  | priority
  | help
  | version
  deriving DecidableEq, Repr

namespace Opt

/-- The option of a long name. -/
def ofLong? : String → Option Opt
  | "dir" => some dir
  | "run" => some run
  | "group" => some group
  | "test" => some test
  | "suite" => some suite
  | "include" => some includeDir
  | "param" => some param
  | "format" => some format
  | "json" => some json
  | "interpreter" => some interpreter
  | "verbose" => some verbose
  | "log-level" => some logLevel
  | "redact" => some redact
  | "labels" => some labels
  | "priority" => some priority
  | "help" => some help
  | "version" => some version
  | _ => none

/-- The option of a letter. -/
def ofShort? : Char → Option Opt
  | 'd' => some dir
  | 'r' => some run
  | 'g' => some group
  | 't' => some test
  | 's' => some suite
  | 'I' => some includeDir
  | 'p' => some param
  | 'v' => some verbose
  | 'h' => some help
  | 'V' => some version
  | _ => none

/-- The options without a value. -/
def isFlag : Opt → Bool
  | json | verbose | redact | help | version => true
  | _ => false

/-- The options that may be used more than once. -/
def mayRepeat : Opt → Bool
  | group | test | includeDir | param | labels => true
  | _ => false

end Opt

/-- Why a command line is not run. -/
inductive UsageError where
  /-- An option that does not exist, or a word that belongs to none. -/
  | unknownArgument
  /-- An option without its value, or with an empty one where a path must stand. -/
  | missingValue
  /-- A value that cannot be read; the text says why where the program has words for it. -/
  | badValue (why : Option String)
  /-- An option used twice, or two options that exclude each other. -/
  | conflict
  /-- A value for a flag. -/
  | needlessValue
  /-- The usage is asked for. -/
  | help
  /-- The version is asked for. -/
  | version
  deriving DecidableEq

/-- The name and version of the program. -/
def versionText : String := "suiterun 0.1.0\n"

/-- What a command line asks for. -/
structure Arguments where
  dir : Option Path := none
  run : Option Path := none
  groups : List String := []
  tests : List String := []
  suite : Option String := none
  includeDirs : List Path := []
  params : List (String × String) := []
  format : Option Format := none
  json : Bool := false
  interpreter : Option Path := none
  verbose : Bool := false
  logLevel : Option String := none
  redact : Bool := false
  labels : List String := []
  priority : Option Int := none

/-! ## Values -/

/-- A path of an option is not empty. -/
def path? (s : String) : Except UsageError Path :=
  if s = "" then .error .missingValue else .ok ⟨s⟩

/-- `NAME=VALUE`, where the name is not blank; blanks around the name are dropped. -/
def binding? (s : String) : Option (String × String) :=
  match cut? '=' s.toList with
  | some (name, value) =>
    let name := trim name
    if name = [] then none else some (String.ofList name, String.ofList value)
  | none => none

/-- What is said about a text that is no binding. -/
def badBinding (s : String) : String := "expected NAME=VALUE, got '" ++ s ++ "'"

/-- A whole number of 64 bits; a sign may stand before it. -/
def priority? (s : String) : Option Int :=
  let (sign, digits) : Int × List Char :=
    match s.toList with
    | '-' :: ds => (-1, ds)
    | '+' :: ds => (1, ds)
    | ds => (1, ds)
  if digits ≠ [] && digits.all Char.isDigit then
    let n := sign * (digits.foldl (fun n d => n * 10 + (d.toNat - 48)) 0 : Nat)
    if -(halfWord : Int) ≤ n ∧ n < (halfWord : Int) then some n else none
  else none

/-- `NAME:t1,t2`: a suite and the tests of it to run. Blanks around a test are dropped, and so are
tests without a name. -/
def suiteChoice (s : String) : SuiteChoice :=
  match cut? ':' s.toList with
  | some (name, tests) =>
    ⟨String.ofList name,
      (((splitOn ',' tests).map trim).filter (· ≠ [])).map String.ofList⟩
  | none => ⟨s, []⟩

namespace Arguments

/-- Raises a flag. -/
def raise (a : Arguments) : Opt → Except UsageError Arguments
  | .json => .ok { a with json := true }
  | .verbose => .ok { a with verbose := true }
  | .redact => .ok { a with redact := true }
  | .help => .error .help
  | .version => .error .version
  | _ => .ok a

/-- Gives an option a value. -/
def give (a : Arguments) (v : String) : Opt → Except UsageError Arguments
  | .dir => (path? v).map fun p => { a with dir := some p }
  | .run => (path? v).map fun p => { a with run := some p }
  | .group => .ok { a with groups := a.groups ++ [v] }
  | .test => .ok { a with tests := a.tests ++ [v] }
  | .suite => .ok { a with suite := some v }
  | .includeDir => (path? v).map fun p => { a with includeDirs := a.includeDirs ++ [p] }
  | .param =>
    match binding? v with
    | some b => .ok { a with params := a.params ++ [b] }
    | none => .error (.badValue (some (badBinding v)))
  | .format =>
    match Format.ofWord? v with
    | some f => .ok { a with format := some f }
    | none => .error (.badValue (some (Format.unknownMessage v)))
  | .interpreter => (path? v).map fun p => { a with interpreter := some p }
  | .logLevel => .ok { a with logLevel := some v }
  | .labels => .ok { a with labels := a.labels ++ (splitOn ',' v.toList).map String.ofList }
  | .priority =>
    match priority? v with
    | some n => .ok { a with priority := some n }
    | none => .error (.badValue none)
  | _ => .ok a

end Arguments

end TestOrchestrator.CommandLine
