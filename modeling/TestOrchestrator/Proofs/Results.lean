import TestOrchestrator.Proofs.Losses
/-!
# What the execution of a run returns

An execution writes its report and only then says what it came to. That the report could not be
written goes before all else; next come the outcomes that the report lost. What the suites count is
in the report alone.

* `Writer.Takes w ts out`: a writer takes texts in order and can be flushed after them.
* `TestRun.Fresh r`: the run was not executed yet.
* `TestRun.exec_result` says which result the execution of such a run has, and what the writer was
  given.
-/

namespace TestOrchestrator

/-! ## Writers -/

section

variable {ω : Type} {w : Writer ω} {ts : List String} {out : ω}

/-- A writer takes texts in order, all of each, and can be flushed after them. -/
def Writer.Takes (w : Writer ω) : List String → ω → Prop
  | [], out => (w.flush out).1 = none
  | t :: ts, out =>
    (w.write (Text.Utf8.encode t.toList) out).refusal = none ∧
      w.Takes ts (w.write (Text.Utf8.encode t.toList) out).state

/-- The bytes of texts in order. -/
def bytesOf (ts : List String) : List UInt8 := ts.flatMap fun t => Text.Utf8.encode t.toList

theorem bytesOf_pair (t t' : String) : bytesOf [t, t'] = Text.Utf8.encode (t ++ t').toList := by
  simp [bytesOf, Text.Utf8.encode_append]

theorem writeAll_refusal_iff : (writeAll w ts out).refusal = none ↔ w.Takes ts out := by
  induction ts generalizing out with
  | nil => rfl
  | cons t ts ih =>
    rw [writeAll, Writer.Takes]
    dsimp only
    cases hrefusal : (w.write (Text.Utf8.encode t.toList) out).refusal with
    | some why => simp
    | none => simp [ih]

/-- What a writer took is the first part of what it was given. -/
theorem writeAll_bytes_prefix (w : Writer ω) (ts : List String) (out : ω) :
    (writeAll w ts out).bytes <+: bytesOf ts := by
  induction ts generalizing out with
  | nil => exact List.prefix_rfl
  | cons t ts ih =>
    have hbytes : bytesOf (t :: ts) = Text.Utf8.encode t.toList ++ bytesOf ts := List.flatMap_cons
    rw [writeAll, hbytes]
    dsimp only
    cases (w.write (Text.Utf8.encode t.toList) out).refusal with
    | some why =>
      obtain ⟨rest, hrest⟩ :=
        Written.accepted_prefix (w.write (Text.Utf8.encode t.toList) out)
          (Text.Utf8.encode t.toList)
      exact List.IsPrefix.trans ⟨rest, hrest⟩ (List.prefix_append _ _)
    | none => exact (List.prefix_append_right_inj _).2 (ih _)

theorem writeAll_bytes_of_takes (h : w.Takes ts out) : (writeAll w ts out).bytes = bytesOf ts := by
  induction ts generalizing out with
  | nil => rfl
  | cons t ts ih =>
    obtain ⟨hrefusal, hrest⟩ := h
    have hbytes : bytesOf (t :: ts) = Text.Utf8.encode t.toList ++ bytesOf ts := List.flatMap_cons
    rw [writeAll, hbytes, ← ih hrest]
    simp [hrefusal]

end

namespace TestRun

variable {σ ω : Type} {e : Engine σ} {now : Timestamp} {r : TestRun} {os : List Outcome}

/-! ## Runs that were not executed yet -/

/-- A run that was not executed yet: nothing was added to its report. -/
def Fresh (r : TestRun) : Prop :=
  ∃ began, r.report = .start began r.definition.name r.definition.version

theorem fresh_of_prepare {d : Definition} {c : Context} {p : Parameters}
    (h : prepare now d c p = .ok r) : r.Fresh := by
  unfold prepare at h
  split at h
  · cases h
  · cases h
    exact ⟨now, rfl⟩

theorem Fresh.open (h : r.Fresh) : r.report.finalized = false := by
  obtain ⟨began, hr⟩ := h
  rw [hr]
  rfl

theorem Fresh.keeps (h : r.Fresh) {α : Type} (outcome : α → Outcome) (xs : List α)
    (elapsed : Duration) :
    Keeps outcome (r.closedReport (xs.map outcome) elapsed) xs := by
  obtain ⟨began, hr⟩ := h
  have hstart : Keeps outcome r.report [] := by
    rw [hr]
    exact .start began r.definition.name r.definition.version
  exact (hstart.foldl_take xs).closed elapsed

/-- **The losses of a run** are noted as errors. -/
theorem Fresh.exists_losses (h : r.Fresh) (os : List Outcome) (elapsed : Duration) :
    ∃ places, Losses os places (r.closedReport os elapsed).errors := by
  obtain ⟨-, kept, hrecorded, -⟩ := h.keeps id os elapsed
  rw [List.map_id] at hrecorded
  exact hrecorded.exists_losses

/-- If all suites fit together, only errors are noted. -/
theorem Fresh.errors_of_fits (h : r.Fresh)
    (hfits : (totalCounts (os.filterMap Outcome.suite?)).Fits)
    (elapsed : Duration) : (r.closedReport os elapsed).errors = os.filterMap Outcome.error? := by
  obtain ⟨began, hr⟩ := h
  rw [closedReport, hr, Report.foldl_take_start_of_fits hfits]

/-! ## Verdicts and results -/

theorem verdict_eq_ok_iff {report : Report} : verdict report = .ok () ↔ report.errors = [] := by
  rw [verdict, ← List.isEmpty_iff]
  cases report.errors.isEmpty <;> simp

theorem verdict_eq_execution_iff {report : Report} {summary : String} :
    verdict report = .error (.execution summary) ↔
      report.errors ≠ [] ∧ report.errorSummary = summary := by
  rw [verdict, ne_eq, ← List.isEmpty_iff]
  cases report.errors.isEmpty <;> simp

theorem verdict_ne_io (report : Report) (why : String) :
    verdict report ≠ .error (.report (.io why)) := by
  unfold verdict
  split <;> simp

/-- Verdicts go by the errors alone. -/
theorem verdict_congr {report report' : Report} (h : report.errors = report'.errors) :
    verdict report = verdict report' := by
  rw [verdict, verdict, Report.errorSummary, Report.errorSummary, h]

section

variable {s' : Session σ} {elapsed : Duration} {w : Writer ω} {out : ω}

/-- The result of an execution whose report is written. -/
theorem executed_result_of_takes
    (h : w.Takes [(r.closedReport os elapsed).document r.format, "\n"] out) :
    (r.executed os s' elapsed w out).result = verdict (r.closedReport os elapsed) := by
  rw [executed]
  dsimp only
  rw [writeAll_refusal_iff.2 h]
  rfl

/-- The result of an execution whose report is not written. -/
theorem executed_result_of_not_takes
    (h : ¬w.Takes [(r.closedReport os elapsed).document r.format, "\n"] out) :
    ∃ why, (r.executed os s' elapsed w out).result = .error (.report (.io why)) := by
  rw [← writeAll_refusal_iff] at h
  obtain ⟨why, hwhy⟩ := Option.ne_none_iff_exists'.1 h
  refine ⟨why, ?_⟩
  rw [executed]
  dsimp only
  rw [hwhy]
  rfl

theorem executed_result_io_iff :
    (∃ why, (r.executed os s' elapsed w out).result = .error (.report (.io why))) ↔
      ¬w.Takes [(r.closedReport os elapsed).document r.format, "\n"] out := by
  refine ⟨fun ⟨why, hio⟩ htakes => ?_, executed_result_of_not_takes⟩
  rw [executed_result_of_takes htakes] at hio
  exact verdict_ne_io _ why hio

/-- An execution without a refusal was written. -/
theorem takes_of_executed_result_ne
    (h : ∀ why, (r.executed os s' elapsed w out).result ≠ .error (.report (.io why))) :
    w.Takes [(r.closedReport os elapsed).document r.format, "\n"] out := by
  by_contra hrefused
  obtain ⟨why, hio⟩ : ∃ why, (r.executed os s' elapsed w out).result = .error (.report (.io why)) :=
    executed_result_of_not_takes hrefused
  exact h why hio

end

/-- **What the first execution of a run returns.** If the writer does not take the document of the
closed report and the line feed behind it, or cannot be flushed after them, the result says so.
Otherwise it is an error just when an outcome was lost, because it was one or because its suite did
not fit, and the summary has one entry for each such outcome, in the order of the units. The writer
has taken the first part of what it was given, and all of it unless the result says otherwise. If
all suites fit together, what they count does not matter: any other execution in which the same
errors come up, and all suites fit, has the same result if it is written too. -/
theorem exec_result (h : r.Fresh) (e : Engine σ) (now : Timestamp) (elapsed : Duration)
    (w : Writer ω) (s : σ) (out : ω) :
    let x := r.exec e now elapsed w s out
    let report := x.run.report
    let texts := [report.document r.format, "\n"]
    ∃ os s' places,
      runAll e now r.definition r.units ⟨r.context, s⟩ = some (os, s') ∧
      report = r.closedReport os elapsed ∧ Losses os places report.errors ∧
      ((∃ why, x.result = .error (.report (.io why))) ↔ ¬w.Takes texts out) ∧
      (w.Takes texts out →
        (x.result = .ok () ↔ ∀ i err, ¬LostAt os i err) ∧
        ∀ summary, x.result = .error (.execution summary) ↔
          (∃ i err, LostAt os i err) ∧
            summary = Text.joined "; " (report.errors.map fun err =>
              err.unit ++ ": " ++ err.message)) ∧
      x.delivery.bytes <+: Text.Utf8.encode (report.document r.format ++ "\n").toList ∧
      ((∀ why, x.result ≠ .error (.report (.io why))) →
        x.delivery.bytes = Text.Utf8.encode (report.document r.format ++ "\n").toList) ∧
      ((totalCounts (os.filterMap Outcome.suite?)).Fits →
        report.errors = os.filterMap Outcome.error? ∧
        ∀ {τ χ : Type} (e₂ : Engine τ) (now₂ : Timestamp) (elapsed₂ : Duration) (w₂ : Writer χ)
          (s₂ : τ) (out₂ : χ) (os₂ : List Outcome) (s₂' : Session τ),
          runAll e₂ now₂ r.definition r.units ⟨r.context, s₂⟩ = some (os₂, s₂') →
          (totalCounts (os₂.filterMap Outcome.suite?)).Fits →
          os₂.filterMap Outcome.error? = os.filterMap Outcome.error? →
          let y := r.exec e₂ now₂ elapsed₂ w₂ s₂ out₂
          (∀ why, x.result ≠ .error (.report (.io why))) →
          (∀ why, y.result ≠ .error (.report (.io why))) → y.result = x.result) := by
  obtain ⟨⟨os, s'⟩, hrun⟩ := Option.isSome_iff_exists.1
    (runAll_isSome e now r.runnable ⟨r.context, s⟩)
  rw [exec_eq_of_open h.open hrun]
  intro x report texts
  obtain ⟨places, hlosses⟩ := h.exists_losses os elapsed
  have hbytes : bytesOf texts = Text.Utf8.encode (report.document r.format ++ "\n").toList :=
    bytesOf_pair _ _
  refine ⟨os, s', places, hrun, rfl, hlosses, executed_result_io_iff,
    fun htakes => ⟨?_, fun summary => ?_⟩, ?_, fun hwritten => ?_,
    fun hfits => ⟨h.errors_of_fits hfits elapsed, ?_⟩⟩
  · rw [executed_result_of_takes htakes, verdict_eq_ok_iff, hlosses.eq_nil_iff]
  · have hsummary : (r.closedReport os elapsed).errorSummary =
        Text.joined "; " (report.errors.map fun err => err.unit ++ ": " ++ err.message) := rfl
    have hsome : ¬(∀ i err, ¬LostAt os i err) ↔ ∃ i err, LostAt os i err := by simp
    rw [executed_result_of_takes htakes, verdict_eq_execution_iff, ne_eq, hlosses.eq_nil_iff, hsome,
      hsummary]
    exact and_congr_right fun _ => eq_comm
  · rw [← hbytes]
    exact writeAll_bytes_prefix w texts out
  · rw [← hbytes]
    exact writeAll_bytes_of_takes (takes_of_executed_result_ne hwritten)
  · intro τ χ e₂ now₂ elapsed₂ w₂ s₂ out₂ os₂ s₂' hrun₂ hfits₂ hsame
    rw [exec_eq_of_open h.open hrun₂]
    intro y hx hy
    have herrors : (r.closedReport os₂ elapsed₂).errors = (r.closedReport os elapsed).errors := by
      rw [h.errors_of_fits hfits₂, h.errors_of_fits hfits, hsame]
    have hx' : x.result = verdict (r.closedReport os elapsed) :=
      executed_result_of_takes (takes_of_executed_result_ne hx)
    have hy' : y.result = verdict (r.closedReport os₂ elapsed₂) :=
      executed_result_of_takes (takes_of_executed_result_ne hy)
    exact hy'.trans ((verdict_congr herrors).trans hx'.symm)

/-- A run of one test. -/
def single : TestRun where
  definition := twice
  units := [.test "a"]
  compiled := ⟨{ tests := ["a"] }, rfl⟩
  context := { baseDir := ⟨"/"⟩ }
  report := .start ⟨2024, 1, 1, 0, 0, 0, 0⟩ "twice" ""
  format := .xml

/-- An engine that refuses every call. -/
def refusal : Engine Unit where
  call _ s := (.error "refused", s)

theorem exec_result_of_refusal : single.Fresh ∧
    (single.exec refusal ⟨2024, 1, 1, 0, 0, 0, 0⟩ .zero .unlimited () ()).result =
      .error (.execution "test a: refused") := by
  have hfresh : single.Fresh := ⟨_, rfl⟩
  obtain ⟨os, s', places, hrun, -, -, -, hwritten, -⟩ :=
    exec_result hfresh refusal ⟨2024, 1, 1, 0, 0, 0, 0⟩ .zero .unlimited () ()
  cases hrun
  obtain ⟨-, hexecution⟩ := hwritten ⟨rfl, rfl, rfl⟩
  exact ⟨hfresh, (hexecution _).2 ⟨⟨0, _, .failed rfl⟩, by decide⟩⟩

end TestRun

end TestOrchestrator
