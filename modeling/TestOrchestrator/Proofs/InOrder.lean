import TestOrchestrator.Proofs.Bookkeeping
import TestOrchestrator.Proofs.Invariance
/-!
# Units one after another

The units need not have been compiled: they may name nothing, and a group may be inside itself. A
sequence of them ends just when each unit does in its place.

* `runAll_append` says that a sequence can be cut anywhere; `runAll_split` looks at one unit in its
  place.
* `runAdding` runs units and adds each outcome to a report as soon as it is there. `runAdding_eq`:
  that is the same as to take all outcomes in at the end.
* `runAll_in_order` puts it together: the outcome of each unit is the one that it has where the
  units before it left the session, and the record of executed units names a unit only after its
  run.
-/

namespace TestOrchestrator

variable {σ : Type} {e : Engine σ} {now : Timestamp} {d : Definition} {u : RunUnit}
  {us before after : List RunUnit} {s s' : Session σ} {os : List Outcome}

/-! ## Cutting a sequence -/

theorem runAll_cons_eq_some_iff :
    runAll e now d (u :: us) s = some (os, s') ↔
      ∃ o t os', u.run e now d s = some (o, t) ∧
        runAll e now d us { t with context := t.context.record u.label } = some (os', s') ∧
        os = o :: os' := by
  constructor
  · intro h
    simp only [runAll, RunUnit.runRecorded, Option.bind_eq_bind, Option.bind_eq_some_iff,
      Option.pure_def, Option.some.injEq] at h
    obtain ⟨-, ⟨⟨o, t⟩, hu, rfl⟩, ⟨os', s''⟩, hus, heq⟩ := h
    cases heq
    exact ⟨o, t, os', hu, hus, rfl⟩
  · rintro ⟨o, t, os', hu, hus, rfl⟩
    exact runAll_cons hu hus

/-- A sequence is its parts one after the other, with all outcomes in order. -/
theorem runAll_append (e : Engine σ) (now : Timestamp) (d : Definition) (us vs : List RunUnit)
    (s : Session σ) :
    runAll e now d (us ++ vs) s =
      (runAll e now d us s).bind fun (os, t) =>
        (runAll e now d vs t).map fun (os', s') => (os ++ os', s') := by
  induction us generalizing s with
  | nil => simp [runAll]
  | cons u us ih =>
    rw [List.cons_append, runAll, runAll]
    cases u.runRecorded e now d s with
    | none => rfl
    | some x =>
      obtain ⟨o, t⟩ := x
      simp only [Option.bind_eq_bind, Option.bind_some, ih]
      cases runAll e now d us t with
      | none => rfl
      | some y =>
        obtain ⟨os, t'⟩ := y
        cases hvs : runAll e now d vs t' with
        | none => simp [hvs]
        | some z => simp [hvs]

theorem length_of_runAll (h : runAll e now d us s = some (os, s')) : os.length = us.length := by
  induction us generalizing s os with
  | nil =>
    cases h
    rfl
  | cons u us ih =>
    obtain ⟨o, t, os', -, hus, rfl⟩ := runAll_cons_eq_some_iff.1 h
    rw [List.length_cons, List.length_cons, ih hus]

/-- One unit in its place: it starts where the units before it left the session, and the units after
it start where it has left the session and was recorded. -/
theorem runAll_split (h : runAll e now d (before ++ u :: after) s = some (os, s')) :
    ∃ os₁ t o t' os₂, os = os₁ ++ o :: os₂ ∧ runAll e now d before s = some (os₁, t) ∧
      u.run e now d t = some (o, t') ∧
      runAll e now d after { t' with context := t'.context.record u.label } = some (os₂, s') := by
  rw [runAll_append, Option.bind_eq_some_iff] at h
  obtain ⟨⟨os₁, t⟩, hbefore, h⟩ := h
  obtain ⟨⟨os₂, s''⟩, hrest, heq⟩ := Option.map_eq_some_iff.1 h
  cases heq
  obtain ⟨o, t', os₃, hu, hafter, rfl⟩ := runAll_cons_eq_some_iff.1 hrest
  exact ⟨os₁, t, o, t', os₃, rfl, hbefore, hu, hafter⟩

/-- **A sequence ends just when each unit ends in its place.** -/
theorem runAll_isSome_iff :
    (runAll e now d us s).isSome ↔
      ∀ before u after, us = before ++ u :: after →
        ∀ os t, runAll e now d before s = some (os, t) → (u.run e now d t).isSome := by
  constructor
  · rintro h before u after rfl os t hbefore
    obtain ⟨⟨os', s'⟩, hrun⟩ := Option.isSome_iff_exists.1 h
    obtain ⟨os₁, t₁, o, t', -, -, hbefore', hu, -⟩ := runAll_split hrun
    cases hbefore.symm.trans hbefore'
    exact Option.isSome_of_eq_some hu
  · intro h
    induction us generalizing s with
    | nil => rfl
    | cons u us ih =>
      obtain ⟨⟨o, t⟩, hu⟩ := Option.isSome_iff_exists.1 (h [] u us rfl [] s rfl)
      have hrest : (runAll e now d us { t with context := t.context.record u.label }).isSome := by
        refine ih fun before v after hus os t' hbefore => ?_
        exact h (u :: before) v after (congrArg (u :: ·) hus) (o :: os) t' (runAll_cons hu hbefore)
      obtain ⟨⟨os, s'⟩, hus⟩ := Option.isSome_iff_exists.1 hrest
      exact Option.isSome_of_eq_some (runAll_cons hu hus)

/-- **The record is extended by the labels of the units in order.** -/
theorem runAll_executed (he : e.KeepsLog) (h : runAll e now d us s = some (os, s')) :
    s'.context.executed = s.context.executed ++ us.map RunUnit.label := by
  induction us generalizing s os with
  | nil =>
    cases h
    exact (List.append_nil _).symm
  | cons u us ih =>
    obtain ⟨o, t, os', hu, hus, -⟩ := runAll_cons_eq_some_iff.1 h
    have ht : t.context.executed = s.context.executed := RunUnit.run_executed he hu
    rw [ih hus, Context.record, ht, List.map_cons, List.append_assoc, List.singleton_append]

/-! ## Adding outcomes on the way -/

/-- Runs units in order and adds each outcome to a report right after its unit. The first refusal of
the report stays; the units after it are run all the same. -/
def runAdding (e : Engine σ) (now : Timestamp) (d : Definition) :
    List RunUnit → Session σ → Except ReportError Report →
      Option (Except ReportError Report × Session σ)
  | [], s, r => some (r, s)
  | u :: us, s, r => do
    let (o, s) ← u.runRecorded e now d s
    runAdding e now d us s (r >>= (·.add? o))

/-- **Outcomes may be added at the end or on the way.** -/
theorem runAdding_eq (e : Engine σ) (now : Timestamp) (d : Definition) (us : List RunUnit)
    (s : Session σ) (r : Except ReportError Report) :
    runAdding e now d us s r =
      (runAll e now d us s).map fun (os, s') => (r >>= (·.fold? os), s') := by
  induction us generalizing s r with
  | nil =>
    have hnil : (r >>= fun report => report.fold? []) = r := by cases r <;> rfl
    exact congrArg (fun x => some (x, s)) hnil.symm
  | cons u us ih =>
    rw [runAdding, runAll]
    cases u.runRecorded e now d s with
    | none => rfl
    | some x =>
      obtain ⟨o, t⟩ := x
      have hcons : ∀ os, (r >>= (·.add? o) >>= (·.fold? os)) = r >>= (·.fold? (o :: os)) := by
        intro os
        cases r <;> rfl
      simp only [Option.bind_eq_bind, Option.bind_some, ih, hcons]
      cases runAll e now d us t <;> rfl

/-! ## In order -/

/-- **Units run one after another.** The sequence ends just when each unit ends in its place. It
gives one outcome for each unit: the one that the unit comes to where those before it left the
session, whatever these came to. With an engine that leaves the record alone, the record is extended
by the labels in order, and that of a unit is not there yet when its run ends. A sequence can be cut
anywhere, and a report that takes the outcomes in at the end is the one that takes in each right
after its unit. -/
theorem runAll_in_order (e : Engine σ) (now : Timestamp) (d : Definition) (us : List RunUnit)
    (s : Session σ) :
    ((runAll e now d us s).isSome ↔
      ∀ before u after, us = before ++ u :: after →
        ∀ os t, runAll e now d before s = some (os, t) → (u.run e now d t).isSome) ∧
    (∀ os s', runAll e now d us s = some (os, s') →
      os.length = us.length ∧
      (∀ before u after, us = before ++ u :: after →
        ∃ os₁ t o t' os₂, os = os₁ ++ o :: os₂ ∧ os₁.length = before.length ∧
          runAll e now d before s = some (os₁, t) ∧ u.run e now d t = some (o, t') ∧
          runAll e now d after { t' with context := t'.context.record u.label } = some (os₂, s') ∧
          (e.KeepsLog →
            t'.context.executed = s.context.executed ++ before.map RunUnit.label)) ∧
      (e.KeepsLog → s'.context.executed = s.context.executed ++ us.map RunUnit.label)) ∧
    (∀ vs, runAll e now d (us ++ vs) s =
      (runAll e now d us s).bind fun (os, t) =>
        (runAll e now d vs t).map fun (os', s') => (os ++ os', s')) ∧
    ∀ r : Report, runAdding e now d us s (.ok r) =
      (runAll e now d us s).map fun (os, s') => (r.fold? os, s') := by
  refine ⟨runAll_isSome_iff, fun os s' h =>
    ⟨length_of_runAll h, ?_, fun he => runAll_executed he h⟩,
    fun vs => runAll_append e now d us vs s, fun r => runAdding_eq e now d us s (.ok r)⟩
  rintro before u after rfl
  obtain ⟨os₁, t, o, t', os₂, hos, hbefore, hu, hafter⟩ := runAll_split h
  refine ⟨os₁, t, o, t', os₂, hos, length_of_runAll hbefore, hbefore, hu, hafter, fun he => ?_⟩
  rw [RunUnit.run_executed he hu, runAll_executed he hbefore]

theorem runAll_in_order_of_failure : passing.KeepsLog ∧
    ∃ os s', runAll passing ⟨2024, 1, 1, 0, 0, 0, 0⟩ twice [.test "missing", .test "a"]
        ⟨{ baseDir := ⟨"/"⟩ }, ()⟩ = some (os, s') ∧
      os.map Outcome.isError = [true, false] ∧
        s'.context.executed = ["test missing", "test a"] := by
  have hlog : passing.KeepsLog := fun _ _ => rfl
  obtain ⟨-, hrun, -, -⟩ := runAll_in_order passing ⟨2024, 1, 1, 0, 0, 0, 0⟩ twice
    [.test "missing", .test "a"] ⟨{ baseDir := ⟨"/"⟩ }, ()⟩
  obtain ⟨-, -, hexecuted⟩ := hrun _ _ rfl
  exact ⟨hlog, _, _, rfl, rfl, hexecuted hlog⟩

end TestOrchestrator
