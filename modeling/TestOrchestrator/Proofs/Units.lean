import TestOrchestrator.Proofs.Merging
/-!
# Runs of units

* `Definition.sites? d u` is what the calls of a unit are made for, in order.
* `Cause e calls message` says that an error comes from the last of some calls.
* `UnitRun e now d u s calls o s'` is the run of a unit with its calls. `exists_unitRun` says that
  every unit that can be run has one.
-/

namespace TestOrchestrator

variable {σ : Type} {e : Engine σ} {s s' : Session σ} {calls : List (EngineCall σ)} {o : Outcome}

/-! ## What calls are made for -/

/-- What a call is made for: a member of a group, or a test or a suite by itself. -/
inductive Site where
  | member (m : Member)
  | alone (name : String) (spec : TestSpec) (tests : List String)

/-- What the engine is asked to run there. -/
def Site.invocation (c : Context) : Site → Invocation
  | member m => m.invocation c
  | alone name spec tests => .of c name spec [] tests

/-- What the calls of a unit are made for, in order. -/
def Definition.sites? (d : Definition) : RunUnit → Option (List Site)
  | .group name => (d.members? [] name none).map (List.map .member)
  | .suite name tests => (d.test? name).map fun spec => [.alone name spec tests]
  | .test name => (d.test? name).map fun spec => [.alone name spec []]

/-- Calls that are made for the first of some sites, in their order. -/
def Serves (sites : List Site) (calls : List (EngineCall σ)) : Prop :=
  List.Forall₂ (fun site c => c.invocation = site.invocation c.session.context)
    (sites.take calls.length) calls

/-! ## Where errors come from -/

/-- An error comes from the last call: the engine refused it, or its suite does not fit. -/
inductive Cause (e : Engine σ) : List (EngineCall σ) → String → Prop
  | refused {before : List (EngineCall σ)} {c : EngineCall σ} {why : String}
      (answer : c.answer e = .error why) : Cause e (before ++ [c]) why
  /-- The call was made for a test of a group. -/
  | refusedIn {before : List (EngineCall σ)} {c : EngineCall σ} {why : String} (group : String)
      (answer : c.answer e = .error why) :
      Cause e (before ++ [c]) (inGroup c.invocation.name group why)
  /-- The suite of the call does not fit with those of the calls before it. -/
  | overflow {before : List (EngineCall σ)} {c : EngineCall σ} {rs : List Suite} {r : Suite}
      (answers : before.map (·.answer e) = rs.map .ok) (answer : c.answer e = .ok r)
      (unfit : ¬Fit (rs ++ [r])) : Cause e (before ++ [c]) (Suite.overflowMessage r.name)

/-! ## Units -/

/-- The run of a unit, with its calls. -/
structure UnitRun (e : Engine σ) (now : Timestamp) (d : Definition) (u : RunUnit) (s : Session σ)
    (calls : List (EngineCall σ)) (o : Outcome) (s' : Session σ) : Prop where
  run : u.run e now d s = some (o, s')
  recorded : ∀ log, u.run e.recorded now d (s.logged log) = some (o, s'.logged (log ++ calls))
  chained : Chained e s calls s'
  serves : ∃ sites, d.sites? u = some sites ∧ Serves sites calls
  cause : ∀ err, o = .error err → err.unit = u.label ∧ Cause e calls err.message

variable {d : Definition} {name : String} {now : Timestamp} {ms : List Member}

theorem Verdict.cause {label : String} {err : ExecutionError}
    (v : Verdict e now name label [] ms calls (.error err)) :
    err.unit = label ∧ Cause e calls err.message := by
  cases v with
  | @refused before rs m c why answers fit member invocation answer =>
    have hname : m.test.name = c.invocation.name := by
      rw [invocation]
      rfl
    rw [hname]
    exact ⟨rfl, .refusedIn _ answer⟩
  | overflow answers fit member invocation answer unfit =>
    exact ⟨rfl, .overflow answers answer unfit⟩

theorem Loop.unitRun (w : d.WellNested [] name) (hms : d.members? [] name none = some ms)
    (h : Loop e (RunUnit.group name).label ms (.empty now name) s calls o s') :
    UnitRun e now d (.group name) s calls o s' where
  run := by rw [RunUnit.run_group w hms, h.runMembers_eq]
  recorded log := by rw [RunUnit.run_group w hms, h.runMembers_recorded]
  chained := h.chained
  serves := by
    refine ⟨ms.map .member, by rw [Definition.sites?, hms]; rfl, ?_⟩
    rw [Serves, ← List.map_take, List.forall₂_map_left_iff]
    exact h.invocations
  cause err herr := (herr ▸ h.verdict .empty fit_nil).cause

/-- What a unit of one call comes to. -/
def Outcome.ofAnswer (label : String) : Except String Suite → Outcome
  | .ok s => .suite s
  | .error why => .error ⟨label, why⟩

theorem Outcome.cause_ofAnswer {label : String} {c : EngineCall σ} {err : ExecutionError}
    (h : ofAnswer label (c.answer e) = .error err) : err.unit = label ∧
      Cause e [c] err.message := by
  cases hanswer : c.answer e with
  | ok r =>
    rw [hanswer] at h
    cases h
  | error why =>
    rw [hanswer] at h
    cases h
    rw [← List.nil_append [c]]
    exact ⟨rfl, .refused hanswer⟩

theorem runAlone_of_invoke {label kind : String} {tests : List String} {spec : TestSpec}
    {answer : Except String Suite} (h : d.test? name = some spec)
    (call : e.invoke (.of s.context name spec [] tests) s = (answer, s')) :
    runAlone e d label kind name tests s = (.ofAnswer label answer, s') := by
  rw [runAlone, h]
  dsimp only
  rw [call]
  cases answer <;> rfl

/-- A unit that is a test by itself makes one call. -/
theorem exists_unitRun_alone {u : RunUnit} {kind : String} {tests : List String} {spec : TestSpec}
    (hrun : ∀ {τ : Type} (e : Engine τ) (s : Session τ),
      u.run e now d s = some (runAlone e d u.label kind name tests s))
    (hsites : d.sites? u = some [.alone name spec tests]) (h : d.test? name = some spec)
    (e : Engine σ) (s : Session σ) :
    ∃ c s', UnitRun e now d u s [c] (.ofAnswer u.label (c.answer e)) s' := by
  obtain ⟨answer, s', hcall⟩ :
      ∃ answer s', e.invoke (.of s.context name spec [] tests) s = (answer, s') := ⟨_, _, rfl⟩
  have hrecorded : ∀ log, e.recorded.invoke (.of (s.logged log).context name spec [] tests)
      (s.logged log) = _ := Engine.recorded_invoke hcall
  have hanswer : EngineCall.answer e ⟨.of s.context name spec [] tests, s⟩ = answer := by
    rw [EngineCall.answer, hcall]
  refine ⟨⟨.of s.context name spec [] tests, s⟩, s', ?_⟩
  exact {
    run := by rw [hrun, runAlone_of_invoke h hcall, hanswer]
    recorded := fun log => by rw [hrun, runAlone_of_invoke h (hrecorded log), hanswer]
    chained := .one (by rw [hcall])
    serves := ⟨_, hsites, .cons rfl .nil⟩
    cause := fun err herr => Outcome.cause_ofAnswer herr }

/-- **Every unit that can be run has a run**, whatever the engine does. -/
theorem Definition.Runnable.exists_unitRun {u : RunUnit} (h : d.Runnable u) (e : Engine σ)
    (now : Timestamp) (s : Session σ) : ∃ calls o s', UnitRun e now d u s calls o s' := by
  cases u with
  | group name =>
    obtain ⟨ms, hms, -⟩ := WellNested.performs e "" h [] none
    obtain ⟨calls, o, s', hloop⟩ := exists_loop e (RunUnit.group name).label ms (.empty now name) s
    exact ⟨calls, o, s', hloop.unitRun h hms⟩
  | suite name tests =>
    obtain ⟨spec, hspec⟩ := Option.isSome_iff_exists.1 h
    obtain ⟨c, s', hrun⟩ := exists_unitRun_alone (u := .suite name tests) (fun _ _ => rfl)
      (by rw [sites?, hspec]; rfl) hspec e s
    exact ⟨_, _, s', hrun⟩
  | test name =>
    obtain ⟨spec, hspec⟩ := Option.isSome_iff_exists.1 h
    obtain ⟨c, s', hrun⟩ := exists_unitRun_alone (u := .test name) (fun _ _ => rfl)
      (by rw [sites?, hspec]; rfl) hspec e s
    exact ⟨_, _, s', hrun⟩

theorem compile_twice : twice.compile { groups := ["outer"] } = .ok [.group "outer"] := by
  refine Definition.compile_eq_ok_iff.2 ⟨fun u hu => ?_, rfl⟩
  have hgroup : u = .group "outer" := List.mem_singleton.1 hu
  rw [hgroup]
  exact twice_wellNested

end TestOrchestrator
