import TestOrchestrator.Proofs.Repetition
import TestOrchestrator.Proofs.Results
/-!
# Counts that are parts of a total

What passed is what is left of the total when skips, failures and errors are taken from it one after
another, and never less than 0. If these are more than the total, something is cut off, and sums of
suites come to other numbers than the suites.

* `Counts.Consistent c` says that they are not more than the total. `Counts.consistent_iff`: then
  nothing is cut off.
* `passed_totalCounts`: what passed in several suites adds up if each of them is consistent.
* `TestRun.exec_consistent` says so of the units and of the report of a whole run on an engine that
  gives consistent suites.
-/

namespace TestOrchestrator

/-! ## Consistent counts -/

/-- Skips, failures and errors are parts of the total. -/
def Counts.Consistent (c : Counts) : Prop := c.skipped + c.failures + c.errors ≤ c.total

namespace Counts

variable {c d : Counts}

/-- The order in which the parts are taken away does not matter. -/
theorem passed_eq (c : Counts) : c.passed = c.total - (c.skipped + c.failures + c.errors) := by
  rw [passed, Nat.sub_sub, Nat.sub_sub, Nat.add_assoc]

/-- Nothing is cut off just when counts are consistent. -/
theorem consistent_iff : c.Consistent ↔
    c.passed + (c.skipped + c.failures + c.errors) = c.total := by
  rw [passed_eq, Consistent]
  omega

namespace Consistent

theorem zero : Consistent {} := Nat.le_refl 0

theorem add (hc : c.Consistent) (hd : d.Consistent) : (c.add d).Consistent := by
  simp only [Consistent, Counts.add] at *
  omega

/-- What passed adds up. One cut off in either count would be missing from the sum. -/
theorem passed_add (hc : c.Consistent) (hd : d.Consistent) :
    (c.add d).passed = c.passed + d.passed := by
  have hsum := consistent_iff.1 (hc.add hd)
  rw [consistent_iff] at hc hd
  simp only [Counts.add] at hsum ⊢
  omega

end Consistent

end Counts

variable {rs : List Suite}

theorem consistent_totalCounts (h : ∀ r ∈ rs, r.counts.Consistent) :
    (totalCounts rs).Consistent := by
  induction rs with
  | nil => exact .zero
  | cons r rs ih =>
    obtain ⟨hr, hrs⟩ := List.forall_mem_cons.1 h
    rw [totalCounts_cons]
    exact hr.add (ih hrs)

/-- **What passed in several suites adds up** if each of them is consistent. -/
theorem passed_totalCounts (h : ∀ r ∈ rs, r.counts.Consistent) :
    (totalCounts rs).passed = (rs.map Suite.passed).sum := by
  induction rs with
  | nil => rfl
  | cons r rs ih =>
    obtain ⟨hr, hrs⟩ := List.forall_mem_cons.1 h
    rw [totalCounts_cons, hr.passed_add (consistent_totalCounts hrs), ih hrs, List.map_cons,
      List.sum_cons]
    rfl

/-! ## Runs -/

variable {σ ω : Type} {e : Engine σ} {now : Timestamp} {d : Definition} {s s' : Session σ}
  {stages : List (Stage σ)}

/-- An engine all of whose suites are consistent. -/
def Engine.Consistent (e : Engine σ) : Prop := ∀ i s r, (e.call i s).1 = .ok r → r.counts.Consistent

theorem Engine.Consistent.answer (he : e.Consistent) {c : EngineCall σ} {r : Suite}
    (h : c.answer e = .ok r) :
    r.counts.Consistent := by
  have hmap : (e.call c.invocation c.session).1.map (Suite.orNamed c.invocation.name) = .ok r := h
  cases hcall : (e.call c.invocation c.session).1 with
  | error why =>
    rw [hcall] at hmap
    cases hmap
  | ok reply =>
    rw [hcall] at hmap
    cases hmap
    have hreply := he _ _ _ hcall
    rw [Suite.orNamed]
    split <;> exact hreply

theorem Engine.Consistent.replies (he : e.Consistent) (st : Stage σ) :
    ∀ r ∈ st.replies e, r.counts.Consistent := by
  intro r hr
  obtain ⟨answer, hanswer, hr⟩ := List.mem_filterMap.1 hr
  obtain ⟨c, -, rfl⟩ := List.mem_map.1 hanswer
  cases h : c.answer e with
  | error why =>
    rw [h] at hr
    cases hr
  | ok reply =>
    rw [h] at hr
    cases hr
    exact he.answer h

/-- **A unit's suite is consistent if the answers to its calls are**, and then what passed in it is
what passed in these. -/
theorem Staged.passed_eq (h : Staged e now d s stages s')
    (hunits : ∀ st ∈ stages, d.Runnable st.unit)
    (he : e.Consistent) : ∀ st ∈ stages, ∀ suite, st.outcome = .suite suite →
      st.calls.map (·.answer e) = (st.replies e).map .ok ∧ suite.counts.Consistent ∧
        suite.passed = ((st.replies e).map Suite.passed).sum := by
  intro st hst suite hsuite
  obtain ⟨hanswers, hmakes⟩ := h.makes hunits st hst suite hsuite
  have hcounts : suite.counts = totalCounts (st.replies e) := hmakes.counts_eq
  rw [Suite.passed, hcounts]
  exact ⟨hanswers, consistent_totalCounts (he.replies st), passed_totalCounts (he.replies st)⟩

namespace TestRun

variable {r : TestRun}

/-- **What passed in a run adds up, from the answers of the engine to the report**, if the engine
gives consistent suites. The suite of each unit is consistent, groups within groups included, and
what passed in it is the sum of what passed in the answers to its calls. The report is consistent,
and what passed in it is the sum of what passed in its suites. Nothing is cut off in counts just
when they are consistent; in any counts, what passed is the difference of the total and the sum of
the other counts, or 0. -/
theorem exec_consistent (hr : r.Fresh) (he : e.Consistent) (now : Timestamp) (elapsed : Duration)
    (w : Writer ω)
    (s : σ) (out : ω) :
    let report := (r.exec e now elapsed w s out).run.report
    (∃ stages s', stages.map Stage.unit = r.units ∧
      Staged e now r.definition ⟨r.context, s⟩ stages s' ∧
      (∀ st ∈ stages, ∀ suite, st.outcome = .suite suite →
        st.calls.map (·.answer e) = (st.replies e).map .ok ∧ suite.counts.Consistent ∧
          suite.passed = ((st.replies e).map Suite.passed).sum) ∧
      ∀ suite ∈ report.suites, ∃ st ∈ stages, st.outcome = .suite suite) ∧
    report.counts.Consistent ∧ report.passed = (report.suites.map Suite.passed).sum ∧
    (∀ c : Counts, c.Consistent ↔ c.passed + (c.skipped + c.failures + c.errors) = c.total) ∧
    ∀ c : Counts, c.passed = c.total - (c.skipped + c.failures + c.errors) := by
  obtain ⟨stages, s', hunits, hstaged, hrun, -⟩ := r.exists_stages e now s
  rw [exec_eq_of_open hr.open hrun]
  intro report
  have hrunnable : ∀ st ∈ stages, r.definition.Runnable st.unit := fun st hst =>
    r.runnable _ (hunits ▸ List.mem_map_of_mem hst)
  have hsuites := hstaged.passed_eq hrunnable he
  obtain ⟨hcounts, kept, hkept, hlisted⟩ := hr.keeps Stage.outcome stages elapsed
  have hfrom : ∀ suite ∈ report.suites, ∃ st ∈ stages, st.outcome = .suite suite := by
    intro suite hsuite
    obtain ⟨p, hp, rfl⟩ := List.mem_map.1 (hlisted.symm ▸ hsuite)
    exact ⟨p.1, hkept.sublist.subset (List.mem_map_of_mem hp), hkept.suite_of_mem p hp⟩
  have hconsistent : ∀ suite ∈ report.suites, suite.counts.Consistent := by
    intro suite hsuite
    obtain ⟨st, hst, hout⟩ := hfrom suite hsuite
    exact (hsuites st hst suite hout).2.1
  have hsum : report.counts = totalCounts report.suites := hcounts
  rw [Report.passed, hsum]
  exact ⟨⟨stages, s', hunits, hstaged, hsuites, hfrom⟩, consistent_totalCounts hconsistent,
    passed_totalCounts hconsistent, fun c => Counts.consistent_iff, Counts.passed_eq⟩

/-- An engine that reports one test of each kind and a second one that passed. -/
def mixing : Engine Unit where
  call i s := (.ok { name := i.name, counts := ⟨5, 1, 1, 1⟩ }, s)

/-- A run of a group in which one group stands twice. -/
def nesting : TestRun where
  definition := twice
  units := [.group "outer"]
  compiled := ⟨_, compile_twice⟩
  context := { baseDir := ⟨"/"⟩ }
  report := .start ⟨2024, 1, 1, 0, 0, 0, 0⟩ "twice" ""
  format := .xml

theorem exec_consistent_of_mixing : nesting.Fresh ∧ mixing.Consistent ∧
    let report := (nesting.exec mixing ⟨2024, 1, 1, 0, 0, 0, 0⟩ .zero .unlimited () ()).run.report
    report.counts.Consistent ∧ report.passed = (report.suites.map Suite.passed).sum := by
  have hfresh : nesting.Fresh := ⟨_, rfl⟩
  have hmixing : mixing.Consistent := by
    intro i s r hr
    cases hr
    show 1 + 1 + 1 ≤ 5
    decide
  obtain ⟨-, hcounts, hpassed, -⟩ :=
    exec_consistent hfresh hmixing ⟨2024, 1, 1, 0, 0, 0, 0⟩ .zero .unlimited () ()
  exact ⟨hfresh, hmixing, hcounts, hpassed⟩

end TestRun

end TestOrchestrator
