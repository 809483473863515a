import TestOrchestrator.CommandLine
import TestOrchestrator.Program.Command
import TestOrchestrator.TestRun
/-!
# The program

* `World` is what the program finds when it is started; `World.run` does what the words of a command
  line ask for.
* `opening` is how the log of the program begins.
* `Exit.status` is the exit status: 0 when the report is written and every unit had a suite, 2 when
  the words could not be understood, 1 for all else that went wrong.
-/

namespace TestOrchestrator

/-- What the program finds when it is started. -/
structure World (σ : Type) where
  files : FileSystem
  home : Option Path
  environ : Environ
  launcher : Launcher σ
  /-- The state of the launcher. -/
  state : σ
  now : Timestamp
  /-- How long the run takes. -/
  elapsed : Duration

/-- How the program ends. -/
inductive Exit where
  | usage (e : CommandLine.UsageError)
  /-- The words and the environment make no parameters. -/
  | refused (why : String)
  | failed (e : RunError)
  | done

namespace Exit

/-- The exit status. -/
def status : Exit → Nat
  | usage .help => 0
  | usage .version => 0
  | usage _ => 2
  | refused _ => 1
  | failed _ => 1
  | done => 0

/-- The exit for a result. -/
def ofResult : Except RunError Unit → Exit
  | .ok () => done
  | .error e => failed e

end Exit

/-! ## The start -/

/-- What the words and the environment ask for. -/
def understand (environ : Environ) (words : List String) :
    Except Exit (CommandLine.Arguments × Parameters) := do
  let args ← (CommandLine.parse words).mapError .usage
  let p ← (args.toParameters? (Environment.load environ.value?)).mapError .refused
  return (args, p)

/-- What the log notes when variables stand in for options. -/
def fallbackNotice : String := "Applied SUITERUN_* environment fallbacks"

/-- The level of the log and its first lines, if the words and the environment are understood. -/
def opening (environ : Environ) (words : List String) : Option (LogLevel × List String) :=
  match understand environ words with
  | .error _ => none
  | .ok (_, p) =>
    let level := p.effectiveLogLevel
    let noted := (Environment.load environ.value?).hasAny && level.showsDebug
    some (level, if noted then [fallbackNotice] else [])

/-! ## The run -/

/-- Does what the words ask for; the report goes to a writer. -/
def World.run {σ ω : Type} (w : World σ) (writer : Writer ω) (out : ω) (words : List String) :
    Exit × List UInt8 :=
  match understand w.environ words with
  | .error exit => (exit, [])
  | .ok (args, p) =>
    match TestRun.load w.files w.home w.environ.value? w.now p with
    | .error e => (.failed e, [])
    | .ok r =>
      let e := programEngine w.launcher w.now w.environ.table args.interpreter
      let x := r.exec e w.now w.elapsed writer w.state out
      (.ofResult x.result, x.delivery.bytes)

end TestOrchestrator
