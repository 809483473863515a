import TestOrchestrator.Proofs.InOrder
import TestOrchestrator.Proofs.Results
/-!
# Whom errors name

An error that a unit comes to names the unit. The error that stands for a suite that does not fit
names the suite, since a report does not know which unit a suite is from.

* `Stage.blamed st` is the name that an error for a unit has, by what the unit came to.
* `TestRun.exec_blames` says that the errors of a run have these names, in the order of the units,
  and that they are those of the units if all suites fit.
* `TestRun.not_exec_names_units`: if a suite does not fit, they need not be.
-/

namespace TestOrchestrator

variable {σ ω : Type} {e : Engine σ} {now : Timestamp} {d : Definition} {s s' : Session σ}
  {stages : List (Stage σ)} {kept : List (Stage σ × Suite)} {es : List ExecutionError}

/-! ## The names of errors -/

/-- Whom an error names that stands for what a unit came to. -/
def Stage.blamed (st : Stage σ) : String :=
  match st.outcome with
  | .error _ => st.unit.label
  | .suite suite => (overflowError suite).unit

/-- A unit that fails is named by its error. -/
def Stage.Names (st : Stage σ) : Prop := ∀ err, st.outcome = .error err → err.unit = st.unit.label

theorem Stage.Names.blamed_eq {st : Stage σ} (h : st.Names) {err : ExecutionError}
    (herr : st.outcome = .error err) : st.blamed = err.unit := by
  rw [blamed, herr, h err herr]

theorem Stage.blamed_of_suite {st : Stage σ} {suite : Suite} (h : st.outcome = .suite suite) :
    st.blamed = (overflowError suite).unit := by
  rw [blamed, h]

/-- **Every unit that fails is named by its error.** -/
theorem Staged.names (h : Staged e now d s stages s') : ∀ st ∈ stages, st.Names := by
  induction h with
  | nil => exact fun _ hst => absurd hst List.not_mem_nil
  | cons unit rest ih => exact List.forall_mem_cons.2 ⟨fun err herr => (unit.cause err herr).1, ih⟩

/-- The name of a suite that does not fit is that of a unit only if the unit is a suite by
itself. -/
theorem exists_suite_of_overflowError_unit {suite : Suite} {u : RunUnit}
    (h : (overflowError suite).unit = u.label) : ∃ name tests, u = .suite name tests := by
  have hfirst : ∀ {t t' : String} {c : Char}, "suite " ++ t = t' → t'.toList.head? = some c →
      c = 's' := by
    rintro t t' c rfl hc
    rw [String.toList_append] at hc
    exact (Option.some.inj hc).symm
  cases u with
  | group name =>
    have hg : ("group " ++ name).toList.head? = some 'g' := by rw [String.toList_append]; rfl
    exact absurd (hfirst h hg) (by decide)
  | suite name tests => exact ⟨name, tests, rfl⟩
  | test name =>
    have ht : ("test " ++ name).toList.head? = some 't' := by rw [String.toList_append]; rfl
    exact absurd (hfirst h ht) (by decide)

/-! ## The names in order -/

/-- Units that fail are named in order. -/
theorem Stage.error_units_sublist (h : ∀ st ∈ stages, st.Names) :
    (((stages.map Stage.outcome).filterMap Outcome.error?).map ExecutionError.unit).Sublist
      ((stages.map Stage.unit).map RunUnit.label) := by
  induction stages with
  | nil => exact .slnil
  | cons st stages ih =>
    obtain ⟨hst, hstages⟩ := List.forall_mem_cons.1 h
    have ih := ih hstages
    rw [List.map_cons, List.map_cons, List.map_cons]
    cases ho : st.outcome with
    | suite suite => exact ih.cons _
    | error err =>
      rw [← hst err ho]
      exact ih.cons_cons _

/-- The errors that are noted have the names that stand for their units, in order. -/
theorem Recorded.units_sublist (h : Recorded Stage.outcome stages kept es)
    (hnames : ∀ st ∈ stages, st.Names) :
    (es.map ExecutionError.unit).Sublist (stages.map Stage.blamed) := by
  induction h with
  | nil => exact .slnil
  | listed before suite fits ih =>
    obtain ⟨hbefore, -⟩ := List.forall_mem_append.1 hnames
    rw [List.map_append]
    exact (ih hbefore).trans (List.sublist_append_left _ _)
  | @unfit _ _ _ st _ before suite large ih =>
    obtain ⟨hbefore, -⟩ := List.forall_mem_append.1 hnames
    rw [List.map_append, List.map_append, List.map_singleton, List.map_singleton,
      st.blamed_of_suite suite]
    exact (ih hbefore).append (.refl _)
  | @failed _ _ _ st _ before error ih =>
    obtain ⟨hbefore, hlast⟩ := List.forall_mem_append.1 hnames
    have hst : st.Names := hlast st (List.mem_singleton_self st)
    rw [List.map_append, List.map_append, List.map_singleton, List.map_singleton,
      hst.blamed_eq error]
    exact (ih hbefore).append (.refl _)

/-- An error stands for the unit in its place: it is what the unit came to, or its suite did not
fit. -/
theorem LostAt.exists_stage {i : Nat} {err : ExecutionError}
    (h : LostAt (stages.map Stage.outcome) i err) :
    ∃ st, stages[i]? = some st ∧
      (st.outcome = .error err ∨ ∃ suite, st.outcome = .suite suite ∧
        err = overflowError suite) := by
  cases h with
  | failed outcome =>
    rw [List.getElem?_map] at outcome
    obtain ⟨st, hst, ho⟩ := Option.map_eq_some_iff.1 outcome
    exact ⟨st, hst, .inl ho⟩
  | unfit outcome before large =>
    rw [List.getElem?_map] at outcome
    obtain ⟨st, hst, ho⟩ := Option.map_eq_some_iff.1 outcome
    exact ⟨st, hst, .inr ⟨_, ho, rfl⟩⟩

/-! ## The errors of a run -/

namespace TestRun

variable {r : TestRun}

/-- **Whom the errors name that the first execution of a run notes.** There is one error for each
unit whose outcome was lost, in order. If the unit failed, the error names it. If its suite did not
fit, the error names the suite; that is the name of the unit only if the unit is a suite by itself.
If all suites fit together, the names are those of units that were run, in the order in which they
were. -/
theorem exec_blames (h : r.Fresh) {e : Engine σ} (he : e.KeepsLog) (now : Timestamp)
    (elapsed : Duration) (w : Writer ω) (s : σ) (out : ω) :
    let x := r.exec e now elapsed w s out
    x.run.context.executed = r.context.executed ++ r.units.map RunUnit.label ∧
    ∃ stages s' places,
      Staged e now r.definition ⟨r.context, s⟩ stages s' ∧ stages.map Stage.unit = r.units ∧
      Losses (stages.map Stage.outcome) places x.run.report.errors ∧
      List.Forall₂ (fun i err => ∃ st, stages[i]? = some st ∧
          (st.outcome = .error err ∧ err.unit = st.unit.label ∨
            ∃ suite, st.outcome = .suite suite ∧ err = overflowError suite ∧
              (err.unit = st.unit.label → ∃ name tests, st.unit = .suite name tests)))
        places x.run.report.errors ∧
      (x.run.report.errors.map ExecutionError.unit).Sublist (stages.map Stage.blamed) ∧
      (((stages.map Stage.outcome).filterMap Outcome.error?).map ExecutionError.unit).Sublist
        (r.units.map RunUnit.label) ∧
      ((totalCounts ((stages.map Stage.outcome).filterMap Outcome.suite?)).Fits →
        (x.run.report.errors.map ExecutionError.unit).Sublist (r.units.map RunUnit.label)) := by
  obtain ⟨stages, s', hstaged, hunits⟩ := exists_staged r.runnable e now ⟨r.context, s⟩
  have hrun : runAll e now r.definition r.units ⟨r.context, s⟩ =
      some (stages.map Stage.outcome, s') := by rw [← hunits, hstaged.runAll_eq]
  rw [exec_eq_of_open h.open hrun]
  intro x
  have hnames : ∀ st ∈ stages, st.Names := hstaged.names
  obtain ⟨-, kept, hrecorded, -⟩ := h.keeps Stage.outcome stages elapsed
  obtain ⟨places, hlosses⟩ := h.exists_losses (stages.map Stage.outcome) elapsed
  have herrors :
      (((stages.map Stage.outcome).filterMap Outcome.error?).map ExecutionError.unit).Sublist
      (r.units.map RunUnit.label) := hunits ▸ Stage.error_units_sublist hnames
  refine ⟨runAll_executed he hrun, stages, s', places, hstaged, hunits, hlosses, ?_,
    hrecorded.units_sublist hnames, herrors, fun hfits => ?_⟩
  · refine hlosses.errors.imp fun i err hlost => ?_
    obtain ⟨st, hst, ho | ⟨suite, ho, rfl⟩⟩ := hlost.exists_stage
    · have hname : st.Names := hnames st (List.mem_of_getElem? hst)
      exact ⟨st, hst, .inl ⟨ho, hname err ho⟩⟩
    · exact ⟨st, hst, .inr ⟨suite, ho, rfl, exists_suite_of_overflowError_unit⟩⟩
  · have hfits : x.run.report.errors = (stages.map Stage.outcome).filterMap Outcome.error? :=
      h.errors_of_fits hfits elapsed
    rw [hfits]
    exact herrors

theorem exec_blames_of_refusal : single.Fresh ∧ refusal.KeepsLog ∧
    ((single.exec refusal ⟨2024, 1, 1, 0, 0, 0, 0⟩ .zero .unlimited () ()).run.report.errors.map
      ExecutionError.unit).Sublist ["test a"] := by
  have hfresh : single.Fresh := ⟨_, rfl⟩
  have hlog : refusal.KeepsLog := fun _ _ => rfl
  obtain ⟨-, stages, s', -, hstaged, hunits, -, -, -, -, hfits⟩ :=
    exec_blames hfresh hlog ⟨2024, 1, 1, 0, 0, 0, 0⟩ .zero .unlimited () ()
  have hrun := hstaged.runAll_eq
  rw [hunits] at hrun
  have hos : stages.map Stage.outcome = [.error ⟨"test a", "refused"⟩] :=
    congrArg Prod.fst (Option.some.inj hrun).symm
  refine ⟨hfresh, hlog, hfits ?_⟩
  rw [hos]
  exact fit_nil.counts

/-- A run of two tests. -/
def double : TestRun where
  definition := twice
  units := [.test "a", .test "b"]
  compiled := ⟨{ tests := ["a", "b"] }, rfl⟩
  context := { baseDir := ⟨"/"⟩ }
  report := .start ⟨2024, 1, 1, 0, 0, 0, 0⟩ "twice" ""
  format := .xml

/-- An engine whose calls all report as many tests as can be reported. -/
def crowding : Engine Unit where
  call i s := (.ok { name := i.name, counts := { total := countLimit - 1 } }, s)

/-- Errors need not name units that were run. -/
theorem not_exec_names_units :
    ¬∀ (r : TestRun) (e : Engine Unit) (now : Timestamp) (elapsed : Duration) (s : Unit),
      r.Fresh → e.KeepsLog →
        let x := r.exec e now elapsed .unlimited s ()
        (∀ err ∈ x.run.report.errors, err.unit ∈ x.run.context.executed) ∧
          (x.run.report.errors.map ExecutionError.unit).Sublist x.run.context.executed := by
  intro h
  have hnamed := h double crowding ⟨2024, 1, 1, 0, 0, 0, 0⟩ .zero () ⟨_, rfl⟩ fun _ _ => rfl
  rw [exec_eq_of_open rfl rfl] at hnamed
  have hmem : "suite b" ∈ ["test a", "test b"] :=
    hnamed.1 ⟨"suite b", "reported counts overflow the run totals"⟩ (.head _)
  exact absurd hmem (by decide)

end TestRun

end TestOrchestrator
