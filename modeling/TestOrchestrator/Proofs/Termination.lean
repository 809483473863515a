import TestOrchestrator.Proofs.Units
/-!
# Compiled units end

Nothing in the run of a group bounds how deep it goes. What bounds it is the walk that accepted the
group: on the way down every group is a new one.

* `runGroupWithin e d label n name via` is the run of a group with a bound on the number of groups
  inside each other, and without the errors for names that stand for nothing.
* `runGroupWithin_eq` says that this changes nothing when the bound leaves room for all groups that
  the walk is not yet inside.
* `run_compiled` says that a compiled unit ends, no deeper than there are groups, and that it fails
  only because of a call that it made.
-/

namespace TestOrchestrator

variable {σ : Type}

/-- A part of a run that has no result. -/
def GroupRun.never : GroupRun σ Unit := ExceptT.mk fun _ => none

/-- The run of a group with at most so many groups inside each other. One that would go deeper, or
come to a name that stands for nothing, has no result. -/
def runGroupWithin (e : Engine σ) (d : Definition) (label : String) :
    Nat → String → Option Params → GroupRun σ Unit
  | 0, _, _ => .never
  | n + 1, name, via => do
    match d.group? name with
    | none => .never
    | some g =>
      let depth := (← get).layers.length
      modify (Progress.enter g via)
      g.tests.forM fun t => if (d.test? t.name).isSome then runMember e d label name t else .never
      g.groups.forM fun r => runGroupWithin e d label n r.name (some r.params)
      modify (Progress.leave depth)

variable {e : Engine σ} {d : Definition} {label : String}

theorem forM_congr {m : Type → Type} [Monad m] {α : Type} {f g : α → m PUnit} {xs : List α}
    (h : ∀ x ∈ xs, f x = g x) : forM xs f = forM xs g := by
  induction xs with
  | nil => rfl
  | cons x xs ih =>
    obtain ⟨hx, hxs⟩ := List.forall_mem_cons.1 h
    rw [List.forM_cons, List.forM_cons, hx, ih hxs]

/-- **The bound changes nothing** when there is room for every group that the walk has yet to enter.
All names that the run comes to stand for something. -/
theorem runGroupWithin_eq {path : List String} {name : String} (w : d.WellNested path name)
    {n : Nat}
    (h : d.room path ≤ n) (via : Option Params) :
    runGroupWithin e d label n name via = runGroup e d label name via := by
  induction w generalizing n via with
  | @intro path name g fresh defined tests groups ih =>
    -- a group on the path has taken one of the groups that the bound leaves room for
    have hroom : d.room (path ++ [name]) < d.room path := Definition.room_enter fresh defined
    obtain ⟨n, rfl⟩ : ∃ k, n = k + 1 := Nat.exists_eq_succ_of_ne_zero (by omega)
    have htests : (forM g.tests fun t =>
        if (d.test? t.name).isSome then runMember e d label name t else .never) =
          forM g.tests (runMember e d label name) :=
      forM_congr fun t ht => if_pos (tests t ht)
    have hgroups : (forM g.groups fun r => runGroupWithin e d label n r.name (some r.params)) =
        forM g.groups fun r => runGroup e d label r.name (some r.params) :=
      forM_congr fun r hr => ih r hr (by omega) _
    rw [runGroup, runGroupWithin, defined]
    dsimp only
    simp only [List.forM_eq_forM, htests, hgroups]

/-- **A compiled unit ends**, with no more groups inside each other than there are groups, and
without coming to a name that stands for nothing. If it fails, the last call that it made was
refused or had a suite that does not fit. -/
theorem RunUnit.run_compiled {sel : Selection} {us : List RunUnit} (h : d.compile sel = .ok us)
    {u : RunUnit} (hu : u ∈ us) (e : Engine σ) (now : Timestamp) (s : Session σ) :
    (∃ calls o s', u.run e now d s = some (o, s') ∧
      (∀ log, u.run e.recorded now d (s.logged log) = some (o, s'.logged (log ++ calls))) ∧
      Chained e s calls s' ∧
      ∀ err, o = .error err → err.unit = u.label ∧ Cause e calls err.message) ∧
    ∀ name, u = .group name →
      runGroupWithin e d u.label d.groups.size name none = runGroup e d u.label name none := by
  obtain ⟨hrunnable, rfl⟩ := Definition.compile_eq_ok_iff.1 h
  refine ⟨?_, ?_⟩
  · obtain ⟨calls, o, s', hrun⟩ := (hrunnable u hu).exists_unitRun e now s
    exact ⟨calls, o, s', hrun.run, hrun.recorded, hrun.chained, hrun.cause⟩
  · rintro name rfl
    exact runGroupWithin_eq (hrunnable _ hu) (Nat.le_of_eq Definition.room_nil) none

theorem run_compiled_twice : twice.compile { groups := ["outer"] } = .ok [.group "outer"] ∧
    (∃ o s', (RunUnit.group "outer").run passing ⟨2024, 1, 1, 0, 0, 0, 0⟩ twice
      ⟨{ baseDir := ⟨"/"⟩ }, ()⟩ = some (o, s')) ∧
    runGroupWithin passing twice "group outer" 2 "outer" none =
      runGroup passing twice "group outer" "outer" none := by
  obtain ⟨⟨-, o, s', hrun, -⟩, hwithin⟩ := RunUnit.run_compiled compile_twice
    List.mem_cons_self passing ⟨2024, 1, 1, 0, 0, 0, 0⟩ ⟨{ baseDir := ⟨"/"⟩ }, ()⟩
  exact ⟨compile_twice, ⟨o, s', hrun⟩, hwithin "outer" rfl⟩

end TestOrchestrator
