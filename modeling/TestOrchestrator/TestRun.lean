import TestOrchestrator.Report.Rendering
import TestOrchestrator.Resolution
import TestOrchestrator.Sequence
/-!
# Test runs

* `TestRun.prepare` compiles the selection of the caller into a run that is ready; `TestRun.load`
  first finds the definition that the caller names.
* `TestRun.exec` runs the units, closes the report and writes it. It does so once; later calls are
  refused and do nothing. That a unit had no suite is an error, but only after the report is
  written; failures that a suite counts are none.
-/

namespace TestOrchestrator

/-- Why a run failed to end well. -/
inductive RunError where
  | config (e : ConfigError)
  | selection (e : SelectionError)
  | report (e : ReportError)
  /-- Units had no suite, or suites did not fit. -/
  | execution (summary : String)
  deriving DecidableEq

/-- The wording of an error. -/
def RunError.message : RunError → String
  | config e => "configuration error: " ++ e.message
  | selection e => "selection error: " ++ e.message
  | report e => "report error: " ++ e.message
  | execution summary => "execution error: " ++ summary

/-- A run that is ready, or was executed. -/
structure TestRun where
  definition : Definition
  units : List RunUnit
  /-- The units are those of a selection. -/
  compiled : ∃ s, definition.compile s = .ok units
  context : Context
  report : Report
  format : Format

namespace TestRun

/-- The run of what the caller selects, begun `now`. -/
def prepare (now : Timestamp) (d : Definition) (c : Context) (p : Parameters) :
    Except SelectionError TestRun :=
  match h : d.compile p.selection with
  | .error e => .error e
  | .ok units => .ok {
    definition := d
    units
    compiled := ⟨p.selection, h⟩
    context := c
    report := .start now d.name d.version
    format := .ofFlag p.emitJson }

/-- The context of a resolved run. -/
def contextOf (env : Variables) (r : ResolvedRun) (p : Parameters) : Context :=
  .forRun env r.definition r.baseDir r.includeDirs p

/-- The run of what the caller names and selects, begun `now`. -/
def load (fs : FileSystem) (home : Option Path) (env : Variables) (now : Timestamp)
    (p : Parameters) : Except RunError TestRun := do
  let r ← (resolve fs home p).mapError .config
  (prepare now r.definition (contextOf env r p) p).mapError .selection

/-- What an execution leaves behind. -/
structure Execution (σ ω : Type) where
  result : Except RunError Unit
  run : TestRun
  /-- The state of the engine. -/
  engine : σ
  delivery : Delivery ω

variable {σ ω : Type}

theorem runnable (r : TestRun) : ∀ u ∈ r.units, r.definition.Runnable u := by
  obtain ⟨s, h⟩ := r.compiled
  obtain ⟨hunits, heq⟩ := Definition.compile_eq_ok_iff.1 h
  exact heq ▸ hunits

/-- Runs the units and adds up their outcomes. The run is not executed yet. -/
def gather (e : Engine σ) (now : Timestamp) (r : TestRun) (s : σ) : TestRun × σ :=
  let (os, session) := (runAll e now r.definition r.units ⟨r.context, s⟩).get
    (runAll_isSome e now r.runnable _)
  ({ r with context := session.context, report := os.foldl Report.take r.report }, session.state)

/-- The result of a run whose report is written. -/
def verdict (r : Report) : Except RunError Unit :=
  if r.errors.isEmpty then .ok () else .error (.execution r.errorSummary)

/-- Executes a run: all units, then the report, which says that they took `elapsed`. -/
def exec (e : Engine σ) (now : Timestamp) (elapsed : Duration) (w : Writer ω) (r : TestRun) (s : σ)
    (out : ω) : Execution σ ω :=
  if r.report.finalized then
    ⟨.error (.report .alreadyFinalized), r, s, ⟨[], none, out⟩⟩
  else
    let (r, s) := r.gather e now s
    let r := { r with report := { r.report with time := elapsed, finalized := true } }
    let (written, d) := r.report.emit r.format w out
    match written with
    | .error why => ⟨.error (.report why), r, s, d⟩
    | .ok () => ⟨verdict r.report, r, s, d⟩

end TestRun

end TestOrchestrator
