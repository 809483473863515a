import Mathlib.Algebra.Ring.Nat
import TestOrchestrator.Proofs.Recording
/-!
# What a group comes to

The run of a group makes one suite out of the suites of its members, or stops at the first member
whose call is refused or whose suite does not fit.

* `Merged now name rs s` says that a suite is some suites in one: the sums of their counts and
  times, and their cases in order. The suites can be merged if their sums fit
  (`Merged.absorb?_isSome_iff`).
* `Verdict e now name label rs ms calls o` is what a loop over members comes to by the answers to
  its calls; `Loop.verdict` says that every loop comes to that.
* `RunUnit.run_group_loop` puts it together for a group that a walk accepts.
-/

namespace TestOrchestrator

/-! ## Suites in one -/

/-- The sums of the counts of some suites. -/
def totalCounts (rs : List Suite) : Counts where
  total := (rs.map (·.counts.total)).sum
  skipped := (rs.map (·.counts.skipped)).sum
  failures := (rs.map (·.counts.failures)).sum
  errors := (rs.map (·.counts.errors)).sum

/-- The sum of the times of some suites. -/
def totalNanos (rs : List Suite) : Nat := (rs.map (·.time.nanos)).sum

/-- The sums are all below their limits. -/
structure Fit (rs : List Suite) : Prop where
  counts : (totalCounts rs).Fits
  time : totalNanos rs < Duration.limit

/-- A suite that is some suites in one. -/
structure Merged (now : Timestamp) (name : String) (rs : List Suite) (s : Suite) : Prop where
  name_eq : s.name = name
  timestamp_eq : s.timestamp = some now
  counts_eq : s.counts = totalCounts rs
  time_eq : s.time.nanos = totalNanos rs
  /-- A case without a class has the name of its suite for one. -/
  cases_eq : s.cases = rs.flatMap fun r => r.cases.map (Case.inClass r.name)

variable {now : Timestamp} {name : String} {rs : List Suite} {r s s' : Suite}

theorem totalCounts_concat : totalCounts (rs ++ [r]) = (totalCounts rs).add r.counts := by
  simp [totalCounts, Counts.add]

theorem totalNanos_concat : totalNanos (rs ++ [r]) = totalNanos rs + r.time.nanos := by
  simp [totalNanos]

theorem fit_nil : Fit [] := ⟨⟨by decide, by decide, by decide, by decide⟩, by decide⟩

namespace Merged

theorem empty : Merged now name [] (.empty now name) := ⟨rfl, rfl, rfl, rfl, rfl⟩

theorem absorb (h : Merged now name rs s) (ha : s.absorb? r = some s') :
    Merged now name (rs ++ [r]) s' := by
  obtain ⟨-, htime, hs'⟩ := Suite.absorb?_eq_some_iff.1 ha
  refine ⟨?_, ?_, ?_, ?_, ?_⟩
  · rw [hs']
    exact h.name_eq
  · rw [hs']
    exact h.timestamp_eq
  · rw [hs', totalCounts_concat, ← h.counts_eq]
  · rw [htime, totalNanos_concat, h.time_eq]
  · rw [hs', h.cases_eq]
    simp

theorem absorb?_isSome_iff (h : Merged now name rs s) :
    (s.absorb? r).isSome ↔ Fit (rs ++ [r]) := by
  rw [Suite.absorb?_isSome_iff, h.counts_eq, h.time_eq, ← totalCounts_concat, ← totalNanos_concat]
  exact ⟨fun ⟨hcounts, htime⟩ => ⟨hcounts, htime⟩, fun ⟨hcounts, htime⟩ => ⟨hcounts, htime⟩⟩

end Merged

/-! ## Verdicts -/

variable {σ : Type} {e : Engine σ} {label : String}

/-- What a loop over members comes to by the answers to its calls, from a suite that some suites
were merged into: all of them in one, or the first failure and nothing else. -/
inductive Verdict (e : Engine σ) (now : Timestamp) (name label : String) (done : List Suite) :
    List Member → List (EngineCall σ) → Outcome → Prop
  /-- There was one call for each member, and all suites fit. -/
  | merged {ms : List Member} {calls : List (EngineCall σ)} {rs : List Suite} {suite : Suite}
      (length : calls.length = ms.length) (answers : calls.map (·.answer e) = rs.map .ok)
      (merged : Merged now name (done ++ rs) suite) :
        Verdict e now name label done ms calls (.suite suite)
  /-- The last call was refused. -/
  | refused {ms : List Member} {before : List (EngineCall σ)} {rs : List Suite} {m : Member}
      {c : EngineCall σ} {why : String} (answers : before.map (·.answer e) = rs.map .ok)
      (fit : Fit (done ++ rs)) (member : ms[before.length]? = some m)
      (invocation : c.invocation = m.invocation c.session.context)
      (answer : c.answer e = .error why) :
      Verdict e now name label done ms (before ++ [c])
        (.error ⟨label, inGroup m.test.name m.group.name why⟩)
  /-- The suite of the last call did not fit. -/
  | overflow {ms : List Member} {before : List (EngineCall σ)} {rs : List Suite} {m : Member}
      {c : EngineCall σ} {r : Suite} (answers : before.map (·.answer e) = rs.map .ok)
      (fit : Fit (done ++ rs)) (member : ms[before.length]? = some m)
      (invocation : c.invocation = m.invocation c.session.context) (answer : c.answer e = .ok r)
      (unfit : ¬Fit (done ++ rs ++ [r])) :
      Verdict e now name label done ms (before ++ [c])
        (.error ⟨label, Suite.overflowMessage r.name⟩)

variable {done : List Suite} {m : Member} {ms : List Member} {c : EngineCall σ}
  {calls : List (EngineCall σ)} {o : Outcome}

/-- One member more in front. -/
theorem Verdict.cons (answer : c.answer e = .ok r)
    (v : Verdict e now name label (done ++ [r]) ms calls o) :
    Verdict e now name label done (m :: ms) (c :: calls) o := by
  have hcons : ∀ {before : List (EngineCall σ)} {rs : List Suite},
      before.map (·.answer e) = rs.map .ok →
        (c :: before).map (·.answer e) = (r :: rs).map .ok := by
    intro before rs answers
    rw [List.map_cons, List.map_cons, answer, answers]
  cases v with
  | merged length answers merged =>
    rw [← List.append_cons] at merged
    exact .merged (congrArg Nat.succ length) (hcons answers) merged
  | refused answers fit member invocation answer' =>
    rw [← List.append_cons] at fit
    rw [← List.cons_append]
    exact .refused (hcons answers) fit member invocation answer'
  | overflow answers fit member invocation answer' unfit =>
    rw [← List.append_cons] at fit unfit
    rw [← List.cons_append]
    exact .overflow (hcons answers) fit member invocation answer' unfit

/-- **Every loop comes to what the answers to its calls say.** -/
theorem Loop.verdict {merged : Suite} {s s' : Session σ} (h : Loop e label ms merged s calls o s')
    (hmerged : Merged now name done merged) (hfit : Fit done) :
    Verdict e now name label done ms calls o := by
  have hnil : ([] : List (EngineCall σ)).map (·.answer e) = ([] : List Suite).map .ok := rfl
  induction h generalizing done with
  | done => exact .merged rfl hnil (by rwa [List.append_nil])
  | @refused m ms merged s s' why call =>
    have hanswer : EngineCall.answer e ⟨m.invocation s.context, s⟩ = .error why := by
      rw [EngineCall.answer, call]
    rw [← List.nil_append [_]]
    exact .refused hnil (by rwa [List.append_nil]) rfl rfl hanswer
  | @overflow m ms merged r s s' call absorb =>
    have hanswer : EngineCall.answer e ⟨m.invocation s.context, s⟩ = .ok r := by
      rw [EngineCall.answer, call]
    have hunfit : ¬Fit (done ++ [r]) := by
      rw [← hmerged.absorb?_isSome_iff, absorb]
      exact Bool.false_ne_true
    rw [← List.nil_append [_]]
    exact .overflow hnil (by rwa [List.append_nil]) rfl rfl hanswer (by rwa [List.append_nil])
  | @next m ms merged merged' r s s' s'' calls o call absorb rest ih =>
    have hanswer : EngineCall.answer e ⟨m.invocation s.context, s⟩ = .ok r := by
      rw [EngineCall.answer, call]
    have hfit' : Fit (done ++ [r]) :=
      hmerged.absorb?_isSome_iff.1 (Option.isSome_of_eq_some absorb)
    exact .cons hanswer (ih (hmerged.absorb absorb) hfit')

/-- **The run of a group is one loop over its members.** -/
theorem RunUnit.run_group_loop {d : Definition} (h : d.checkGroup name = .ok ()) (e : Engine σ)
    (now : Timestamp) (s : Session σ) :
    ∃ ms calls o s', d.members? [] name none = some ms ∧
      runMembers e ("group " ++ name) ms (.empty now name) s = (o, s') ∧
      (group name).run e now d s = some (o, s') ∧
      (∀ log, (group name).run e.recorded now d (s.logged log) =
        some (o, s'.logged (log ++ calls))) ∧
      Chained e s calls s' ∧
      List.Forall₂ (fun m c => c.invocation = m.invocation c.session.context)
        (ms.take calls.length) calls ∧
      Verdict e now name ("group " ++ name) [] ms calls o := by
  have w := Definition.checkGroup_eq_ok_iff.1 h
  obtain ⟨ms, hms, -⟩ := w.performs e (group name).label [] none
  obtain ⟨calls, o, s', hloop⟩ := exists_loop e (group name).label ms (.empty now name) s
  refine ⟨ms, calls, o, s', hms, hloop.runMembers_eq, ?_, fun log => ?_, hloop.chained,
    hloop.invocations, hloop.verdict .empty fit_nil⟩
  · rw [run_group w hms, hloop.runMembers_eq]
  · rw [run_group w hms, hloop.runMembers_recorded]

/-! ## A group that is listed twice -/

/-- A group with a test and, twice, another group. -/
def twice : Definition where
  name := "twice"
  tests := .ofList [("a", { path := "a" }), ("b", { path := "b" })]
  groups := .ofList [("inner", { tests := [⟨"b", .empty⟩] }),
    ("outer", { tests := [⟨"a", .empty⟩], groups := [⟨"inner", .empty⟩, ⟨"inner", .empty⟩] })]

/-- That the walk comes to a group twice does not put the group inside itself. -/
theorem twice_wellNested : twice.WellNested [] "outer" := by
  have hinner : twice.WellNested ([] ++ ["outer"]) "inner" :=
    .intro (by decide) rfl (by decide) (fun r hr => by cases hr)
  refine .intro (by decide) rfl (by decide) fun r hr => ?_
  have hname : r.name = "inner" := by
    have hr' : r = ⟨"inner", .empty⟩ := by simpa using hr
    rw [hr']
  rw [hname]
  exact hinner

/-- The members of the inner group are there twice. -/
theorem members_twice : ∃ ms, twice.members? [] "outer" none = some ms ∧
    ms.map (·.test.name) = ["a", "b", "b"] := by
  let inner : Member :=
    ⟨[⟨"outer", .empty, none⟩], ⟨"inner", .empty, some .empty⟩, ⟨"b", .empty⟩, { path := "b" }⟩
  have hinner : twice.members? ([] ++ [⟨"outer", .empty, none⟩]) "inner" (some .empty) =
      some [inner] := by
    rw [Definition.members?]
    rfl
  have hgroups : [Ref.mk "inner" .empty, Ref.mk "inner" .empty].mapM (fun r =>
      twice.members? ([] ++ [⟨"outer", .empty, none⟩]) r.name (some r.params)) =
        some [[inner], [inner]] := by
    rw [List.mapM_cons, List.mapM_cons, hinner]
    rfl
  exact ⟨_, Definition.members?_of_defined rfl rfl hgroups, rfl⟩

/-- An engine whose calls all give a suite of one case that passed. -/
def passing : Engine Unit where
  call i s := (.ok (.ofCases ⟨2024, 1, 1, 0, 0, 0, 0⟩ i.name [{ name := "case" }]), s)

theorem run_group_loop_twice : twice.checkGroup "outer" = .ok () ∧
    ∃ ms calls o s', twice.members? [] "outer" none = some ms ∧
      ms.map (·.test.name) = ["a", "b", "b"] ∧
      (RunUnit.group "outer").run passing ⟨2024, 1, 1, 0, 0, 0, 0⟩ twice
        ⟨{ baseDir := ⟨"/"⟩ }, ()⟩ =
        some (o, s') ∧
      Verdict passing ⟨2024, 1, 1, 0, 0, 0, 0⟩ "outer" "group outer" [] ms calls o := by
  have hcheck : twice.checkGroup "outer" = .ok () :=
    Definition.checkGroup_eq_ok_iff.2 twice_wellNested
  obtain ⟨ms, calls, o, s', hms, -, hrun, -, -, -, hverdict⟩ :=
    RunUnit.run_group_loop hcheck passing
    ⟨2024, 1, 1, 0, 0, 0, 0⟩ ⟨{ baseDir := ⟨"/"⟩ }, ()⟩
  obtain ⟨ms', hms', hnames⟩ := members_twice
  cases Option.some.inj (hms.symm.trans hms')
  exact ⟨hcheck, ms, calls, o, s', hms, hnames, hrun, hverdict⟩

end TestOrchestrator
