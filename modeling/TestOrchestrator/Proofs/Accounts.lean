import TestOrchestrator.Proofs.Bookkeeping
import TestOrchestrator.Proofs.Units
import TestOrchestrator.TestRun
/-!
# From calls to reports

What a report adds up are the answers of the engine, each of them once.

* `RunUnit.Makes now u rs s` says how the suite of a unit comes from answers: a group merges those
  of its members, a test or a suite passes its one answer on. `UnitRun.makes` says that every unit
  that has a suite got it so.
* `Staged e now d s stages s'` is a run of units, each with its calls and its outcome.
* `TestRun.exec_eq_of_open` is all that the execution of a run with an open report leaves behind.
* `TestRun.exec_accounts` puts it together with what a report keeps: the suites, counts and cases of
  the report of a whole run are those of the answers to the calls of the units that it kept.
-/

namespace TestOrchestrator

variable {σ ω : Type} {e : Engine σ} {now : Timestamp} {d : Definition} {u : RunUnit}
  {s s' s'' : Session σ} {calls calls' : List (EngineCall σ)} {o o' : Outcome}

/-! ## Sums -/

theorem totalCounts_cons (r : Suite) (rs : List Suite) :
    totalCounts (r :: rs) = r.counts.add (totalCounts rs) := by
  simp [totalCounts, Counts.add]

theorem totalCounts_append (rs rs' : List Suite) :
    totalCounts (rs ++ rs') = (totalCounts rs).add (totalCounts rs') := by
  simp [totalCounts, Counts.add]

/-! ## Suites of units -/

namespace RunUnit

/-- The suite of a unit is made from some answers. -/
def Makes (now : Timestamp) : RunUnit → List Suite → Suite → Prop
  | group name, rs, made => Merged now name rs made
  | _, rs, made => rs = [made]

/-- The cases of an answer as the suite of a unit has them. -/
def casesOf : RunUnit → Suite → List Case
  | group _, r => r.cases.map (Case.inClass r.name)
  | _, r => r.cases

variable {rs : List Suite} {suite : Suite}

theorem Makes.counts_eq (h : u.Makes now rs suite) : suite.counts = totalCounts rs := by
  have hone : suite.counts = totalCounts [suite] := by simp [totalCounts]
  cases u with
  | group name => exact Merged.counts_eq h
  | suite name tests =>
    cases h
    exact hone
  | test name =>
    cases h
    exact hone

theorem Makes.cases_eq (h : u.Makes now rs suite) : suite.cases = rs.flatMap u.casesOf := by
  cases u with
  | group name => exact Merged.cases_eq h
  | suite name tests =>
    cases h
    exact (List.flatMap_singleton (casesOf (.suite name tests)) suite).symm
  | test name =>
    cases h
    exact (List.flatMap_singleton (casesOf (.test name)) suite).symm

end RunUnit

/-- What is recorded leaves no choice: a unit has one run. -/
theorem UnitRun.unique (h : UnitRun e now d u s calls o s')
    (h' : UnitRun e now d u s calls' o' s'') :
    calls = calls' ∧ o = o' := by
  have hlog := Option.some.inj ((h.recorded []).symm.trans (h'.recorded []))
  have hcalls : [] ++ calls = [] ++ calls' :=
    congrArg (fun p : Outcome × Session (σ × List (EngineCall σ)) => p.2.state.2) hlog
  exact ⟨hcalls, congrArg Prod.fst hlog⟩

/-- A unit of one call that has a suite passes the answer on. -/
theorem Outcome.ofAnswer_eq_suite_iff {label : String} {answer : Except String Suite}
    {suite : Suite} :
    ofAnswer label answer = .suite suite ↔ answer = .ok suite := by
  cases answer <;> simp [ofAnswer]

/-- **Every unit that has a suite made it from the answers to its calls**, all of which were
suites. -/
theorem UnitRun.makes {suite : Suite} (h : UnitRun e now d u s calls (.suite suite) s')
    (hu : d.Runnable u) :
    ∃ rs, calls.map (·.answer e) = rs.map .ok ∧ u.Makes now rs suite := by
  have halone : ∀ {label : String} {c : EngineCall σ} {s'' : Session σ},
      UnitRun e now d u s [c] (.ofAnswer label (c.answer e)) s'' →
        calls.map (·.answer e) = [suite].map .ok := by
    intro label c s'' h'
    obtain ⟨rfl, ho⟩ := h.unique h'
    have hanswer := Outcome.ofAnswer_eq_suite_iff.1 ho.symm
    rw [List.map_singleton, List.map_singleton, hanswer]
  cases u with
  | group name =>
    obtain ⟨ms, hms, -⟩ := Definition.WellNested.performs e "" hu [] none
    obtain ⟨calls', o', s'', hloop⟩ :=
      exists_loop e (RunUnit.group name).label ms (.empty now name) s
    obtain ⟨rfl, rfl⟩ := h.unique (hloop.unitRun hu hms)
    cases hloop.verdict .empty fit_nil with
    | merged length answers merged => exact ⟨_, answers, merged⟩
  | suite name tests =>
    obtain ⟨spec, hspec⟩ := Option.isSome_iff_exists.1 hu
    obtain ⟨c, s'', hrun⟩ := exists_unitRun_alone (u := .suite name tests) (fun _ _ => rfl)
      (by rw [Definition.sites?, hspec]; rfl) hspec e s
    exact ⟨[suite], halone hrun, rfl⟩
  | test name =>
    obtain ⟨spec, hspec⟩ := Option.isSome_iff_exists.1 hu
    obtain ⟨c, s'', hrun⟩ := exists_unitRun_alone (u := .test name) (fun _ _ => rfl)
      (by rw [Definition.sites?, hspec]; rfl) hspec e s
    exact ⟨[suite], halone hrun, rfl⟩

/-! ## Stages -/

/-- A unit that was run: its calls and what it came to. -/
structure Stage (σ : Type) where
  unit : RunUnit
  calls : List (EngineCall σ)
  outcome : Outcome

/-- The suites that the engine answered with, in the order of the calls. -/
def Stage.replies (e : Engine σ) (st : Stage σ) : List Suite :=
  (st.calls.map (·.answer e)).filterMap Except.toOption

/-- Units that are run one after another; each leaves its label in the context. -/
inductive Staged (e : Engine σ) (now : Timestamp) (d : Definition) :
    Session σ → List (Stage σ) → Session σ → Prop
  | nil {s : Session σ} : Staged e now d s [] s
  | cons {u : RunUnit} {s s' s'' : Session σ} {calls : List (EngineCall σ)} {o : Outcome}
      {stages : List (Stage σ)} (unit : UnitRun e now d u s calls o s')
      (rest : Staged e now d { s' with context := s'.context.record u.label } stages s'') :
      Staged e now d s (⟨u, calls, o⟩ :: stages) s''

variable {us : List RunUnit} {stages : List (Stage σ)}

theorem exists_staged (h : ∀ u ∈ us, d.Runnable u) (e : Engine σ) (now : Timestamp)
    (s : Session σ) :
    ∃ stages s', Staged e now d s stages s' ∧ stages.map Stage.unit = us := by
  induction us generalizing s with
  | nil => exact ⟨[], s, .nil, rfl⟩
  | cons u us ih =>
    obtain ⟨hu, hus⟩ := List.forall_mem_cons.1 h
    obtain ⟨calls, o, s₁, hrun⟩ := hu.exists_unitRun e now s
    obtain ⟨stages, s₂, hrest, hunits⟩ := ih hus { s₁ with context := s₁.context.record u.label }
    exact ⟨⟨u, calls, o⟩ :: stages, s₂, .cons hrun hrest, by rw [List.map_cons, hunits]⟩

namespace Staged

theorem runAll_eq (h : Staged e now d s stages s') :
    runAll e now d (stages.map Stage.unit) s = some (stages.map Stage.outcome, s') := by
  induction h with
  | nil => rfl
  | cons unit rest ih => exact runAll_cons unit.run ih

/-- The calls of a run are those of its stages. -/
theorem runAll_recorded (h : Staged e now d s stages s') (log : List (EngineCall σ)) :
    runAll e.recorded now d (stages.map Stage.unit) (s.logged log) =
      some (stages.map Stage.outcome, s'.logged (log ++ stages.flatMap Stage.calls)) := by
  induction h generalizing log with
  | nil =>
    rw [List.flatMap_nil, List.append_nil]
    rfl
  | cons unit rest ih =>
    rw [List.flatMap_cons, ← List.append_assoc]
    exact runAll_cons (unit.recorded log) (ih _)

theorem makes (h : Staged e now d s stages s') (hunits : ∀ st ∈ stages, d.Runnable st.unit) :
    ∀ st ∈ stages, ∀ suite, st.outcome = .suite suite →
      st.calls.map (·.answer e) = (st.replies e).map .ok ∧
        st.unit.Makes now (st.replies e) suite := by
  induction h with
  | nil => exact fun _ hst => absurd hst List.not_mem_nil
  | @cons u s s' s'' calls o stages unit rest ih =>
    obtain ⟨hu, hstages⟩ := List.forall_mem_cons.1 hunits
    refine List.forall_mem_cons.2 ⟨?_, ih hstages⟩
    rintro suite rfl
    obtain ⟨rs, hanswers, hmakes⟩ := unit.makes hu
    have hreplies : Stage.replies e ⟨u, calls, .suite suite⟩ = rs := by
      rw [Stage.replies, hanswers, List.filterMap_map]
      exact List.filterMap_some
    rw [hreplies]
    exact ⟨hanswers, hmakes⟩

end Staged

/-! ## Whole runs -/

/-- Suites that are made from answers add up to what the answers add up to. -/
theorem totalCounts_of_makes {kept : List (Stage σ × Suite)}
    (h : ∀ p ∈ kept, p.1.unit.Makes now (p.1.replies e) p.2) :
    totalCounts (kept.map Prod.snd) = totalCounts (kept.flatMap fun p => p.1.replies e) := by
  induction kept with
  | nil => rfl
  | cons p kept ih =>
    obtain ⟨hp, hkept⟩ := List.forall_mem_cons.1 h
    rw [List.map_cons, List.flatMap_cons, totalCounts_append, ← ih hkept, ← hp.counts_eq,
      totalCounts_cons]

namespace TestRun

variable {r : TestRun} {os : List Outcome}

/-- The report of a run whose units came to some outcomes. -/
def closedReport (r : TestRun) (os : List Outcome) (elapsed : Duration) : Report :=
  { os.foldl Report.take r.report with time := elapsed, finalized := true }

/-- What an execution leaves behind whose units came to some outcomes and left a session. -/
def executed (r : TestRun) (os : List Outcome) (s' : Session σ) (elapsed : Duration) (w : Writer ω)
    (out : ω) :
    Execution σ ω :=
  let report := r.closedReport os elapsed
  let d := writeAll w [report.document r.format, "\n"] out
  { result := d.refusal.elim (verdict report) fun why => .error (.report (.io why))
    run := { r with context := s'.context, report }
    engine := s'.state
    delivery := d }

/-- **What the execution of a run with an open report leaves behind.** -/
theorem exec_eq_of_open (hopen : r.report.finalized = false) {s : σ}
    (hrun : runAll e now r.definition r.units ⟨r.context, s⟩ = some (os, s')) (elapsed : Duration)
    (w : Writer ω) (out : ω) : r.exec e now elapsed w s out = r.executed os s' elapsed w out := by
  have hgather : r.gather e now s =
      ({ r with context := s'.context, report := os.foldl Report.take r.report }, s'.state) := by
    simp only [gather, hrun, Option.get_some]
  have hclosed : (r.closedReport os elapsed).finalized = true := rfl
  have hemit := Report.emit_of_closed hclosed r.format w out
  rw [exec, hopen, hgather, executed]
  rw [closedReport] at hemit ⊢
  dsimp only at hemit ⊢
  rw [if_neg Bool.false_ne_true, hemit]
  cases (writeAll w _ out).refusal <;> rfl

theorem exec_of_open (hopen : r.report.finalized = false) {s : σ}
    (hrun : runAll e now r.definition r.units ⟨r.context, s⟩ = some (os, s')) (elapsed : Duration)
    (w : Writer ω) (out : ω) :
    (r.exec e now elapsed w s out).run.report =
        { os.foldl Report.take r.report with time := elapsed, finalized := true } ∧
      (r.exec e now elapsed w s out).engine = s'.state := by
  rw [exec_eq_of_open hopen hrun]
  exact ⟨rfl, rfl⟩

end TestRun

/-- **The report of a whole run adds up the answers of the engine.** Its suites are those of the
units that had one that fits, one for each, in the order of the units; its counts and its cases are
those of the answers to the calls of these units, each of them once, in the order of the calls.
Units without a suite add nothing. -/
theorem TestRun.exec_accounts {sel : Selection} {us : List RunUnit} (h : d.compile sel = .ok us)
    (e : Engine σ) (began now : Timestamp) (c : Context) (f : Format) (elapsed : Duration)
    (w : Writer ω) (s : σ) (out : ω) :
    let run : TestRun := ⟨d, us, ⟨sel, h⟩, c, .start began d.name d.version, f⟩
    let report := (run.exec e now elapsed w s out).run.report
    ∃ stages kept s', stages.map Stage.unit = us ∧ Staged e now d ⟨c, s⟩ stages s' ∧
      (∀ log, (run.exec e.recorded now elapsed w (s, log) out).engine =
        (s'.state, log ++ stages.flatMap Stage.calls)) ∧
      Recorded Stage.outcome stages kept report.errors ∧
      report.suites = kept.map Prod.snd ∧
      (∀ p ∈ kept, p.1.calls.map (·.answer e) = (p.1.replies e).map .ok) ∧
      report.counts = totalCounts (kept.flatMap fun p => p.1.replies e) ∧
      report.suites.flatMap Suite.cases =
        kept.flatMap fun p => (p.1.replies e).flatMap p.1.unit.casesOf := by
  intro run report
  obtain ⟨hrunnable, rfl⟩ := Definition.compile_eq_ok_iff.1 h
  obtain ⟨stages, s', hstaged, hunits⟩ := exists_staged hrunnable e now ⟨c, s⟩
  have hrun : runAll e now run.definition run.units ⟨c, s⟩ =
      some (stages.map Stage.outcome, s') := by
    show runAll e now d sel.units ⟨c, s⟩ = _
    rw [← hunits, hstaged.runAll_eq]
  have hrecorded : ∀ log, runAll e.recorded now run.definition run.units ⟨c, s, log⟩ =
      some (stages.map Stage.outcome, s'.logged (log ++ stages.flatMap Stage.calls)) := by
    intro log
    show runAll e.recorded now d sel.units (Session.logged ⟨c, s⟩ log) = _
    rw [← hunits, hstaged.runAll_recorded log]
  have hreport : report = { (stages.map Stage.outcome).foldl Report.take run.report with
      time := elapsed, finalized := true } := (exec_of_open rfl hrun elapsed w out).1
  have hkeeps : Keeps Stage.outcome report stages := by
    rw [hreport]
    exact ((Keeps.start began d.name d.version).foldl_take stages).closed elapsed
  obtain ⟨hcounts, kept, hkept, hsuites⟩ := hkeeps
  have hmakes : ∀ p ∈ kept, p.1.calls.map (·.answer e) = (p.1.replies e).map .ok ∧
      p.1.unit.Makes now (p.1.replies e) p.2 := by
    intro p hp
    have hmem : p.1 ∈ stages := hkept.sublist.subset (List.mem_map_of_mem hp)
    refine hstaged.makes (fun st hst => hrunnable _ ?_) p.1 hmem p.2 (hkept.suite_of_mem p hp)
    rw [← hunits]
    exact List.mem_map_of_mem hst
  refine ⟨stages, kept, s', hunits, hstaged, fun log => ?_, hkept, hsuites.symm,
    fun p hp => (hmakes p hp).1, ?_, ?_⟩
  · exact (exec_of_open rfl (hrecorded log) elapsed w out).2
  · rw [hcounts, ← hsuites]
    exact totalCounts_of_makes fun p hp => (hmakes p hp).2
  · rw [← hsuites, List.flatMap_map]
    exact List.flatMap_congr fun p hp => (hmakes p hp).2.cases_eq

theorem exec_accounts_twice : twice.compile { groups := ["outer"] } = .ok [.group "outer"] ∧
    ∃ stages kept, stages.map Stage.unit = [.group "outer"] ∧
      Recorded Stage.outcome stages kept
        (TestRun.exec passing ⟨2024, 1, 1, 0, 0, 0, 0⟩ .zero .unlimited
          ⟨twice, [.group "outer"], ⟨_, compile_twice⟩, { baseDir := ⟨"/"⟩ },
            .start ⟨2024, 1, 1, 0, 0, 0, 0⟩ "twice" "", .xml⟩ () ()).run.report.errors ∧
      (TestRun.exec passing ⟨2024, 1, 1, 0, 0, 0, 0⟩ .zero .unlimited
          ⟨twice, [.group "outer"], ⟨_, compile_twice⟩, { baseDir := ⟨"/"⟩ },
            .start ⟨2024, 1, 1, 0, 0, 0, 0⟩ "twice" "", .xml⟩ () ()).run.report.counts =
        totalCounts (kept.flatMap fun p => p.1.replies passing) := by
  obtain ⟨stages, kept, -, hunits, -, -, hrecorded, -, -, hcounts, -⟩ :=
    TestRun.exec_accounts compile_twice passing ⟨2024, 1, 1, 0, 0, 0, 0⟩ ⟨2024, 1, 1, 0, 0, 0, 0⟩
      { baseDir := ⟨"/"⟩ } .xml .zero .unlimited () ()
  exact ⟨compile_twice, stages, kept, hunits, hrecorded, hcounts⟩

end TestOrchestrator
