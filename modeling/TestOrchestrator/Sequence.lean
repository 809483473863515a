import TestOrchestrator.GroupRun
/-!
# Units in sequence

* `RunUnit.run` runs a unit. A test or a suite is one call of the engine, a group the run of all its
  members.
* `runAll` runs units one after another in one session; a unit that fails does not stop those after
  it. It gives one outcome per unit, and the session records the label of each unit once it was run.
* `runAll_isSome` says that compiled units all end.
-/

namespace TestOrchestrator

variable {σ : Type}

/-- Runs a test by itself. -/
def runAlone (e : Engine σ) (d : Definition) (label kind name : String) (tests : List String)
    (s : Session σ) : Outcome × Session σ :=
  match d.test? name with
  | none => (.error ⟨label, notDefined kind name⟩, s)
  | some spec =>
    match e.invoke (.of s.context name spec [] tests) s with
    | (.ok suite, s) => (.suite suite, s)
    | (.error why, s) => (.error ⟨label, why⟩, s)

/-- Runs a group by itself. Its suite is begun `now`. -/
def runWhole (e : Engine σ) (now : Timestamp) (d : Definition) (label name : String)
    (s : Session σ) : Option (Outcome × Session σ) := do
  match ← (runGroup e d label name none).runFrom ⟨s, [], .empty now name⟩ with
  | (.ok (), p) => return (.suite p.merged, p.session)
  | (.error err, p) => return (.error err, p.session)

/-- Runs a unit. -/
def RunUnit.run (e : Engine σ) (now : Timestamp) (d : Definition) (u : RunUnit) (s : Session σ) :
    Option (Outcome × Session σ) :=
  match u with
  | group name => runWhole e now d u.label name s
  | suite name tests => some (runAlone e d u.label "suite" name tests s)
  | test name => some (runAlone e d u.label "test" name [] s)

/-- Runs a unit and records it. -/
def RunUnit.runRecorded (e : Engine σ) (now : Timestamp) (d : Definition) (u : RunUnit)
    (s : Session σ) : Option (Outcome × Session σ) := do
  let (o, s) ← u.run e now d s
  return (o, { s with context := s.context.record u.label })

/-- Runs units in order. -/
def runAll (e : Engine σ) (now : Timestamp) (d : Definition) :
    List RunUnit → Session σ → Option (List Outcome × Session σ)
  | [], s => some ([], s)
  | u :: us, s => do
    let (o, s) ← u.runRecorded e now d s
    let (os, s) ← runAll e now d us s
    return (o :: os, s)

theorem runAll_cons {e : Engine σ} {now : Timestamp} {d : Definition} {u : RunUnit}
    {us : List RunUnit} {s s₁ s₂ : Session σ} {o : Outcome} {os : List Outcome}
    (hu : u.run e now d s = some (o, s₁))
    (hus : runAll e now d us { s₁ with context := s₁.context.record u.label } = some (os, s₂)) :
    runAll e now d (u :: us) s = some (o :: os, s₂) := by
  simp [runAll, RunUnit.runRecorded, hu, hus]

/-! ## Units that can be run -/

variable {d : Definition} (e : Engine σ) (now : Timestamp)

theorem RunUnit.run_isSome {u : RunUnit} (h : d.Runnable u) (s : Session σ) :
    (u.run e now d s).isSome := by
  cases u with
  | group name =>
    obtain ⟨⟨r, p⟩, hr⟩ := Option.isSome_iff_exists.1
      (runGroup_total e (group name).label h none ⟨s, [], .empty now name⟩)
    rw [run, runWhole, hr]
    cases r <;> rfl
  | suite name tests => rfl
  | test name => rfl

theorem runAll_isSome {us : List RunUnit} (h : ∀ u ∈ us, d.Runnable u) (s : Session σ) :
    (runAll e now d us s).isSome := by
  induction us generalizing s with
  | nil => rfl
  | cons u us ih =>
    obtain ⟨hu, hus⟩ := List.forall_mem_cons.1 h
    obtain ⟨⟨o, s₁⟩, ho⟩ := Option.isSome_iff_exists.1 (u.run_isSome e now hu s)
    obtain ⟨⟨os, s₂⟩, hos⟩ := Option.isSome_iff_exists.1
      (ih hus { s₁ with context := s₁.context.record u.label })
    rw [runAll_cons ho hos]
    rfl

end TestOrchestrator
