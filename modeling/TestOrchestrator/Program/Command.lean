import TestOrchestrator.Engine
import TestOrchestrator.Environment
import TestOrchestrator.FileSystem
import TestOrchestrator.Program
/-!
# Running tests as programs

* `Command.of` is the command for an invocation: the test's path as the program, or as the first
  argument of an interpreter, then the tests to run of a suite. The parameters are variables of its
  environment, and so is what else the test may want to know.
* `Command.environ` is the environment as the program finds it.
* `Launcher σ` starts commands; `programEngine` is the engine that runs every test by a launcher.
-/

namespace TestOrchestrator

/-! ## Commands -/

/-- A program to start. -/
structure Command where
  program : Path
  args : List OsText
  /-- The directory to start it in. -/
  cwd : Path
  envVars : Table OsText

namespace Command

/-- The variables about an invocation. The list of directories is left out if a path holds a
colon. -/
def facts (c : Context) (i : Invocation) : List (String × Option OsText) :=
  [("INCLUDE", if c.includeDirs.isEmpty then none else joinPaths? c.includeDirs),
    ("LABELS", if i.labels.isEmpty then none else some (Text.joined "," i.labels)),
    ("PRIORITY", i.priority.map fun n => .ofText (toString n)),
    ("VERSION", i.version.map .ofText)]

/-- The command for an invocation. Parameters go before the variables that are there already, the
facts about the invocation before both. -/
def of (outer : Table OsText) (interpreter : Option Path) (c : Context) (i : Invocation) :
    Command where
  program := interpreter.getD i.path
  args := (if interpreter.isSome then [i.path.text] else []) ++ i.tests.map .ofText
  cwd := c.baseDir
  envVars :=
    (outer.update (i.params.map .ofText)).insertAll
      ((facts c i).filterMap fun (name, value) => value.map (Environment.variableName name, ·))

/-- The environment that the program finds. -/
def environ (c : Command) : Environ := .ofTable c.envVars

/-- Whether a text holds the byte 0, which ends a text for the operating system. -/
def hasNul (t : OsText) : Bool := t.bytes.contains Byte.nul

/-- Whether some part of a command holds the byte 0. -/
def cutShort (c : Command) : Bool :=
  hasNul c.program.text || c.args.any hasNul || hasNul c.cwd.text || c.environ.entries.any hasNul

end Command

/-- Why a program does not start. -/
inductive StartFault where
  /-- Some part of the command holds the byte 0. -/
  | cutShort
  | refused (why : OsError)
  deriving DecidableEq

/-- The wording of a fault. -/
def StartFault.message : StartFault → String
  | cutShort => "nul byte found in provided data"
  | refused why => why.message

/-! ## The engine -/

/-- The output of a program and the time it took. -/
structure Finished where
  output : Output
  elapsed : Duration

/-- What starts programs and waits for them. -/
structure Launcher (σ : Type) where
  launch : Command → σ → Except StartFault Finished × σ

/-- What is said about a test that did not start. -/
def startFailure (i : Invocation) (why : StartFault) : String :=
  "failed to start " ++ i.path.shown ++ ": " ++ why.message

/-- The engine that runs every test as a program. -/
def programEngine {σ : Type} (l : Launcher σ) (now : Timestamp) (outer : Table OsText)
    (interpreter : Option Path) : Engine σ where
  call i s :=
    let (answer, state) := l.launch (.of outer interpreter s.context i) s.state
    let answer :=
      match answer with
      | .ok f => .ok (f.output.toSuite now i.name f.elapsed)
      | .error why => .error (startFailure i why)
    (answer, ⟨s.context, state⟩)

end TestOrchestrator
