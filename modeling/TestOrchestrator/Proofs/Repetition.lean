import TestOrchestrator.Proofs.Accounts
/-!
# Executing a run again

A run can be executed once. Its report is closed before anything is written, so that it is closed
whatever the first call comes to.

* `TestRun.Attempt` is a call to execute a run, with a writer of its own kind. `TestRun.execAll`
  makes calls one after another.
* `TestRun.exec_of_closed` is what the execution of a run with a closed report leaves behind.
* `TestRun.execAll_cons`: only the first call does anything.
-/

namespace TestOrchestrator.TestRun

variable {σ ω : Type} {r : TestRun}

/-! ## One execution -/

/-- What a refused execution leaves behind: all as it was, and nothing written. -/
def refused (r : TestRun) (s : σ) (out : ω) : Execution σ ω :=
  ⟨.error (.report .alreadyFinalized), r, s, ⟨[], none, out⟩⟩

theorem exec_of_closed (h : r.report.finalized = true) (e : Engine σ) (now : Timestamp)
    (elapsed : Duration)
    (w : Writer ω) (s : σ) (out : ω) : r.exec e now elapsed w s out = refused r s out := by
  rw [exec, h]
  rfl

/-! ## Several executions -/

/-- A call to execute a run: where its report is to go, when it is made, and how long the units
take. -/
structure Attempt : Type 1 where
  {Sink : Type}
  writer : Writer Sink
  sink : Sink
  now : Timestamp
  elapsed : Duration

/-- What a call leaves behind. -/
def Attempt.exec (a : Attempt) (e : Engine σ) (r : TestRun) (s : σ) : Execution σ a.Sink :=
  r.exec e a.now a.elapsed a.writer s a.sink

/-- Calls in order, each with what it leaves behind. The run and the engine go on from one to the
next. -/
def execAll (e : Engine σ) : TestRun → σ → List Attempt → List (Σ a : Attempt, Execution σ a.Sink)
  | _, _, [] => []
  | r, s, a :: as =>
    let x := a.exec e r s
    ⟨a, x⟩ :: execAll e x.run x.engine as

/-- A run with a closed report stays as it is. -/
theorem execAll_of_closed (h : r.report.finalized = true) (e : Engine σ) (s : σ)
    (as : List Attempt) :
    execAll e r s as = as.map fun a => ⟨a, refused r s a.sink⟩ := by
  induction as with
  | nil => rfl
  | cons a as ih =>
    rw [execAll, Attempt.exec, exec_of_closed h, List.map_cons, ← ih]
    rfl

/-- A run can be executed: its units end, with calls that can be kept. -/
theorem exists_stages (r : TestRun) (e : Engine σ) (now : Timestamp) (s : σ) :
    ∃ stages s', stages.map Stage.unit = r.units ∧
      Staged e now r.definition ⟨r.context, s⟩ stages s' ∧
      runAll e now r.definition r.units ⟨r.context, s⟩ = some (stages.map Stage.outcome, s') ∧
      ∀ log, runAll e.recorded now r.definition r.units ⟨r.context, (s, log)⟩ =
        some (stages.map Stage.outcome, s'.logged (log ++ stages.flatMap Stage.calls)) := by
  obtain ⟨stages, s', hstaged, hunits⟩ := exists_staged r.runnable e now ⟨r.context, s⟩
  exact ⟨stages, s', hunits, hstaged, hunits ▸ hstaged.runAll_eq, fun log =>
    hunits ▸ hstaged.runAll_recorded log⟩

/-- Whatever a call comes to, the report is closed after it. -/
theorem exec_closes (a : Attempt) (e : Engine σ) (r : TestRun) (s : σ) :
    (a.exec e r s).run.report.finalized = true := by
  cases h : r.report.finalized with
  | true =>
    rw [Attempt.exec, exec_of_closed h]
    exact h
  | false =>
    obtain ⟨stages, s', -, -, hrun, -⟩ := r.exists_stages e a.now s
    rw [Attempt.exec, exec_eq_of_open h hrun]
    rfl

/-- **Only the first call to execute a run does anything.** Each later one is refused: it leaves the
run, with its report and its context, and the engine as the first call has left them, and gives its
writer nothing. If the report is open, the first call runs all units and then writes the closed
report; the calls that the engine sees in the whole history are those of the units in this one. -/
theorem execAll_cons (r : TestRun) (e : Engine σ) (s : σ) (a : Attempt) (as : List Attempt) :
    let first := a.exec e r s
    execAll e r s (a :: as) = ⟨a, first⟩ :: as.map (fun b =>
      ⟨b, refused first.run first.engine b.sink⟩) ∧
    (r.report.finalized = true → first = refused r s a.sink) ∧
    (r.report.finalized = false → ∃ stages s', stages.map Stage.unit = r.units ∧
      Staged e a.now r.definition ⟨r.context, s⟩ stages s' ∧
      first = r.executed (stages.map Stage.outcome) s' a.elapsed a.writer a.sink ∧
      ∀ log, ∀ x ∈ execAll e.recorded r (s, log) (a :: as),
        x.2.engine = (s'.state, log ++ stages.flatMap Stage.calls)) := by
  intro first
  refine ⟨?_, fun h => exec_of_closed h .., fun h => ?_⟩
  · rw [execAll, execAll_of_closed (exec_closes a e r s)]
  · obtain ⟨stages, s', hunits, hstaged, hrun, hrecorded⟩ := r.exists_stages e a.now s
    refine ⟨stages, s', hunits, hstaged, exec_eq_of_open h hrun .., fun log x hx => ?_⟩
    have hfirst : (a.exec e.recorded r (s, log)).engine =
        (s'.state, log ++ stages.flatMap Stage.calls) := by
      rw [Attempt.exec, exec_eq_of_open h (hrecorded log)]
      rfl
    rw [execAll, execAll_of_closed (exec_closes a e.recorded r (s, log))] at hx
    rcases List.mem_cons.1 hx with rfl | hx
    · exact hfirst
    · obtain ⟨b, -, rfl⟩ := List.mem_map.1 hx
      exact hfirst

end TestOrchestrator.TestRun
