import TestOrchestrator.CommandLine.Options
import TestOrchestrator.Environment
/-!
# The command line

Words are read one after another. An option without its value waits for the next word; what is wrong
with an option that waits, or with its value, only shows when the next option comes or at the end.
The words are texts: bytes that are none, which could be meant for a path, are left out of account.

* `CommandLine.parse words` is what the words ask for.
* `Arguments.toParameters?` completes that from the environment: options win over variables.
-/

namespace TestOrchestrator.CommandLine

open Text

/-- The words read so far. -/
structure Reading where
  args : Arguments := {}
  /-- The options used so far. -/
  used : List Opt := []
  /-- The last option, not yet recorded, and its value if that has come. -/
  waiting : Option (Opt × Option String) := none
  /-- A word of two dashes has come: no option follows. -/
  ended : Bool := false

namespace Reading

/-- Notes a use of an option; only some may be used twice. -/
def use (r : Reading) (o : Opt) : Except UsageError Reading :=
  if !o.mayRepeat && r.used.contains o then .error .conflict
  else .ok { r with used := o :: r.used }

/-- Records an option with its value. -/
def give (r : Reading) (o : Opt) (v : String) : Except UsageError Reading := do
  let r ← r.use o
  return { r with args := ← r.args.give v o }

/-- Records the option that waits. -/
def settle (r : Reading) : Except UsageError Reading :=
  match r.waiting with
  | none => .ok r
  | some (_, none) => .error .missingValue
  | some (o, some v) => { r with waiting := none }.give o v

/-- Raises a flag. -/
def raise (r : Reading) (o : Opt) : Except UsageError Reading := do
  let r ← r.settle
  match o with
  | .help => .error .help
  | .version => .error .version
  | _ => do
    let r ← r.use o
    return { r with args := ← r.args.raise o }

/-- An option with a value that is part of its word, or one that waits for its value. -/
def take (r : Reading) (o : Opt) (attached : Option String) : Except UsageError Reading := do
  let r ← r.settle
  match attached with
  | some v => r.give o v
  | none => return { r with waiting := some (o, none) }

/-- A word after two dashes: a long name, perhaps with a value after an equals sign. -/
def long (r : Reading) (cs : List Char) : Except UsageError Reading :=
  let (name, value) :=
    match cut? '=' cs with
    | some (name, value) => (name, some (String.ofList value))
    | none => (cs, none)
  match Opt.ofLong? (String.ofList name) with
  | none => .error .unknownArgument
  | some o =>
    if o.isFlag then
      match value with
      | some _ => .error .needlessValue
      | none => r.raise o
    else r.take o value

/-- A word after one dash: flags by their letters and, at the end, perhaps an option; what follows
its letter, less an equals sign, is its value. -/
def short : Reading → List Char → Except UsageError Reading
  | r, [] => .ok r
  | r, c :: cs =>
    match Opt.ofShort? c with
    | none => .error .unknownArgument
    | some o =>
      if o.isFlag then do
        let r ← r.raise o
        short r cs
      else
        match cs with
        | [] => r.take o none
        | '=' :: v => r.take o (some (String.ofList v))
        | v => r.take o (some (String.ofList v))

/-- A word that is no option: the value of the option that waits for one. -/
def plain (r : Reading) (word : String) : Except UsageError Reading :=
  match r.waiting with
  | some (o, none) => .ok { r with waiting := some (o, some word) }
  | _ => .error .unknownArgument

/-- Reads one word. -/
def step (r : Reading) (word : String) : Except UsageError Reading :=
  if r.ended then .error .unknownArgument
  else
    match word.toList with
    | ['-', '-'] => .ok { r with ended := true }
    | '-' :: '-' :: cs => r.long cs
    | '-' :: c :: cs => r.short (c :: cs)
    | _ => r.plain word

end Reading

/-- What the words ask for. -/
def parse (words : List String) : Except UsageError Arguments := do
  let r ← words.foldlM Reading.step {}
  let r ← r.settle
  if r.args.format.isSome && r.args.json then .error .conflict else return r.args

/-! ## Parameters -/

/-- What is said about a word that is no log level. -/
def unknownLevel (s : String) : String := "Unknown log level: " ++ s

/-- The log level of an option, else of the environment. -/
def Arguments.level? (a : Arguments) (env : Environment) : Except String LogLevel :=
  match a.logLevel.or env.logLevel with
  | none => .ok .info
  | some s =>
    match LogLevel.ofWord? s with
    | some l => .ok l
    | none => .error (unknownLevel s)

/-- Whether the report is JSON: as the format says, else by the flag or the environment. -/
def Arguments.wantsJson (a : Arguments) (env : Environment) : Bool :=
  match a.format with
  | some f => f = .json
  | none => a.json || env.json.getD false

/-- The parameters of the run that is asked for. -/
def Arguments.toParameters? (a : Arguments) (env : Environment) : Except String Parameters := do
  let logLevel ← a.level? env
  return {
    dir := a.dir.or env.dir
    filename := a.run.or env.runFile
    includeDirs := a.includeDirs ++ env.includeDirs
    bindings := Table.ofList a.params
    groups := a.groups
    tests := a.tests
    suite := a.suite.map suiteChoice
    emitJson := a.wantsJson env
    verbose := a.verbose
    logLevel
    redact := a.redact || env.redact.getD false
    labels := a.labels.filter (· ≠ "")
    priority := a.priority }

end TestOrchestrator.CommandLine
