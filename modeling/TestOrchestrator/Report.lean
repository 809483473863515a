import TestOrchestrator.Outcome
/-!
# Reports

A report adds up the suites of a run.

* `Report.add?` takes one outcome. A suite whose counts fit is listed and counted; one whose counts
  do not fit, like an error, only goes into the list of errors.
* `Report.finish?` closes the report and sets its time. A closed report takes no more outcomes.
-/

namespace TestOrchestrator

/-- The result of a run. -/
structure Report where
  name : String
  version : String
  counts : Counts := {}
  /-- When the run began. -/
  started : Timestamp
  /-- How long the run took. -/
  time : Duration := .zero
  suites : List Suite := []
  errors : List ExecutionError := []
  finalized : Bool := false

/-- Why a report refuses a request. -/
inductive ReportError where
  | alreadyFinalized
  | notFinalized
  /-- The report could not be written. -/
  | io (why : String)
  deriving DecidableEq

/-- The wording of a refusal. -/
def ReportError.message : ReportError → String
  | alreadyFinalized => "report already finalized"
  | notFinalized => "report has not been finalized"
  | io why => "failed to write report: " ++ why

/-- The error that stands for a suite whose counts do not fit. -/
def overflowError (s : Suite) : ExecutionError :=
  ⟨"suite " ++ s.name, "reported counts overflow the run totals"⟩

namespace Report

/-- The empty report of a run that begins `now`. -/
def start (now : Timestamp) (name version : String) : Report := { name, version, started := now }

/-- Lists and counts an outcome. -/
def take (r : Report) : Outcome → Report
  | .suite s =>
    match r.counts.add? s.counts with
    | some counts => { r with counts, suites := r.suites ++ [s] }
    | none => { r with errors := r.errors ++ [overflowError s] }
  | .error e => { r with errors := r.errors ++ [e] }

/-- Takes an outcome, unless the report is closed. -/
def add? (r : Report) (o : Outcome) : Except ReportError Report :=
  if r.finalized then .error .alreadyFinalized else .ok (r.take o)

/-- Takes outcomes in order. -/
def fold? (r : Report) (os : List Outcome) : Except ReportError Report := os.foldlM add? r

/-- Closes the report of a run that took `elapsed`. -/
def finish? (r : Report) (elapsed : Duration) : Except ReportError Report :=
  if r.finalized then .error .alreadyFinalized
  else .ok { r with time := elapsed, finalized := true }

/-- Whether a counted test erred. Failures and skips do not matter here. -/
def hasErrors (r : Report) : Bool := 0 < r.counts.errors

/-- What is left of the total. -/
def passed (r : Report) : Nat := r.counts.passed

/-- The errors in one line. -/
def errorSummary (r : Report) : String := TestOrchestrator.errorSummary r.errors

end Report

end TestOrchestrator
