import Mathlib.Algebra.BigOperators.Group.List.Basic
import Mathlib.Data.List.FinRange
import TestOrchestrator.Program.Command
import TestOrchestrator.Proofs.InOrder
import TestOrchestrator.Proofs.Losses
/-!
# Units in another order

What a unit comes to depends on the units before it only through the session that they leave. If the
engine leaves the context alone, all that they leave there is the record of executed units, and no
invocation is made from that.

* `Suite.seen f` is a suite with what is seen of its timestamp. Clocks may be told apart or not, by
  `f`.
* `Engine.Steady f e`: the engine leaves the context alone, and its answers do not depend on when it
  is asked. `programEngine_steady` says that an engine that runs programs is so if the programs are.
* `RunUnit.seen?_congr` is about one unit in two runs.
* `runAll_permuted` puts it together for units that are run in another order.
-/

namespace TestOrchestrator

variable {σ : Type} {f : Option Timestamp → Option Timestamp} {e : Engine σ} {now now' : Timestamp}
  {d : Definition} {i : Invocation} {s s' t : Session σ}

/-! ## What is seen of timestamps -/

/-- A suite with what is seen of its timestamp. -/
def Suite.seen (f : Option Timestamp → Option Timestamp) (s : Suite) : Suite :=
  { s with timestamp := f s.timestamp }

/-- An outcome with what is seen of the timestamp of its suite. -/
def Outcome.seen (f : Option Timestamp → Option Timestamp) : Outcome → Outcome
  | suite s => suite (s.seen f)
  | error err => error err

theorem Suite.seen_orNamed (name : String) (s : Suite) :
    (s.orNamed name).seen f = (s.seen f).orNamed name := by
  by_cases h : s.name = "" <;> simp [orNamed, seen, h]

/-- Suites are merged whatever is seen of their timestamps. -/
theorem Suite.seen_absorb? (s r : Suite) :
    (s.absorb? r).map (seen f) = (s.seen f).absorb? (r.seen f) := by
  simp only [absorb?, seen]
  cases s.counts.add? r.counts with
  | none => rfl
  | some counts => cases s.time.add? r.time <;> rfl

theorem Outcome.seen_ofAnswer (label : String) (answer : Except String Suite) :
    (ofAnswer label answer).seen f = ofAnswer label (answer.map (Suite.seen f)) := by
  cases answer <;> rfl

theorem Outcome.filterMap_suite?_seen (os : List Outcome) :
    (os.map (seen f)).filterMap suite? = (os.filterMap suite?).map (Suite.seen f) := by
  rw [List.filterMap_map, List.map_filterMap]
  refine List.filterMap_congr fun o _ => ?_
  cases o <;> rfl

theorem Outcome.filterMap_error?_seen (os : List Outcome) :
    (os.map (seen f)).filterMap error? = os.filterMap error? := by
  rw [List.filterMap_map]
  refine List.filterMap_congr fun o _ => ?_
  cases o <;> rfl

/-! ## Steady engines -/

/-- A context without its record of executed units. -/
def Context.unlogged (c : Context) : Context := { c with executed := [] }

/-- An invocation is not made from the record. -/
theorem Invocation.of_congr {c c' : Context} (h : c.unlogged = c'.unlogged) (name : String)
    (spec : TestSpec) (layers : List Params) (tests : List String) :
    Invocation.of c name spec layers tests = .of c' name spec layers tests := by
  show Invocation.of c.unlogged name spec layers tests = .of c'.unlogged name spec layers tests
  rw [h]

theorem Member.invocation_congr {c c' : Context} (h : c.unlogged = c'.unlogged) (m : Member) :
    m.invocation c = m.invocation c' :=
  Invocation.of_congr h m.test.name m.spec m.layers []

/-- An engine that leaves the context alone. What it answers to an invocation, as far as it is seen,
it answers wherever the same run stands: neither its own state nor the record of executed units has
a part in it. -/
structure Engine.Steady (f : Option Timestamp → Option Timestamp) (e : Engine σ) : Prop where
  context : ∀ i s, (e.call i s).2.context = s.context
  answer : ∀ i s t, s.context.unlogged = t.context.unlogged →
    (e.call i s).1.map (Suite.seen f) = (e.call i t).1.map (Suite.seen f)

/-- An engine is steady if its answers depend on nothing but the invocation. -/
theorem Engine.Steady.of_answers (hcontext : ∀ i s, (e.call i s).2.context = s.context)
    (hanswer : ∀ i s t, (e.call i s).1 = (e.call i t).1) : e.Steady f :=
  ⟨hcontext, fun i s t _ => congrArg (Except.map (Suite.seen f)) (hanswer i s t)⟩

/-- An engine that runs programs is steady if what a program does depends on nothing but its
command. -/
theorem programEngine_steady {l : Launcher σ} (h : ∀ c x y, (l.launch c x).1 = (l.launch c y).1)
    (now : Timestamp) (outer : Table OsText) (interpreter : Option Path) :
    (programEngine l now outer interpreter).Steady f where
  context _ _ := rfl
  answer i s t hst := by
    have hcommand : Command.of outer interpreter s.context i =
        .of outer interpreter t.context i := by
      show Command.of outer interpreter s.context.unlogged i =
        .of outer interpreter t.context.unlogged i
      rw [hst]
    dsimp only [programEngine]
    rw [hcommand, h _ s.state t.state]

namespace Engine.Steady

/-- The context stays as it is. -/
theorem preserves (h : e.Steady f) (c : Context) : e.Preserves fun t => t.context = c :=
  fun i t ht => (h.context i t).trans ht

theorem invoke_eq (h : e.Steady f) (hst : s.context.unlogged = t.context.unlogged)
    (i : Invocation) :
    (e.invoke i s).1.map (Suite.seen f) = (e.invoke i t).1.map (Suite.seen f) := by
  have hcomm : ∀ answer : Except String Suite,
      (answer.map (Suite.orNamed i.name)).map (Suite.seen f) =
        (answer.map (Suite.seen f)).map (Suite.orNamed i.name) := by
    intro answer
    cases answer with
    | error why => rfl
    | ok r => exact congrArg Except.ok (Suite.seen_orNamed i.name r)
  show ((e.call i s).1.map (Suite.orNamed i.name)).map (Suite.seen f) =
    ((e.call i t).1.map (Suite.orNamed i.name)).map (Suite.seen f)
  rw [hcomm, hcomm, h.answer i s t hst]

/-- A call that is refused is refused elsewhere too. -/
theorem refused (h : e.Steady f) (hst : s.context.unlogged = t.context.unlogged) {why : String}
    (call : e.invoke i s = (.error why, s')) : ∃ t', e.invoke i t = (.error why, t') := by
  have hanswer := h.invoke_eq hst i
  rcases ht : e.invoke i t with ⟨answer, t'⟩
  rw [call, ht] at hanswer
  cases answer with
  | error why' =>
    cases hanswer
    exact ⟨t', rfl⟩
  | ok r => cases hanswer

/-- A call that is answered with a suite is answered with the same elsewhere. -/
theorem answered (h : e.Steady f) (hst : s.context.unlogged = t.context.unlogged) {r : Suite}
    (call : e.invoke i s = (.ok r, s')) :
    ∃ r' t', e.invoke i t = (.ok r', t') ∧ r'.seen f = r.seen f ∧
      s'.context.unlogged = t'.context.unlogged := by
  have hanswer := h.invoke_eq hst i
  rcases ht : e.invoke i t with ⟨answer, t'⟩
  have hs' : s'.context = s.context := (h.preserves s.context).invoke call rfl
  have ht' : t'.context = t.context := (h.preserves t.context).invoke ht rfl
  rw [call, ht] at hanswer
  cases answer with
  | error why => cases hanswer
  | ok r' => exact ⟨r', t', rfl, (Except.ok.inj hanswer).symm, by rw [hs', ht', hst]⟩

end Engine.Steady

/-! ## One unit in two runs -/

theorem runAlone_seen (he : e.Steady f) (hst : s.context.unlogged = t.context.unlogged)
    (label kind name : String) (tests : List String) :
    (runAlone e d label kind name tests s).1.seen f =
      (runAlone e d label kind name tests t).1.seen f := by
  cases hspec : d.test? name with
  | none => rw [runAlone, runAlone, hspec]
  | some spec =>
    have hanswer := he.invoke_eq hst (.of s.context name spec [] tests)
    have hi := Invocation.of_congr hst name spec [] tests
    rcases hs : e.invoke (.of s.context name spec [] tests) s with ⟨answer, s'⟩
    rcases ht : e.invoke (.of s.context name spec [] tests) t with ⟨answer', t'⟩
    rw [hs, ht] at hanswer
    rw [hi] at ht
    rw [runAlone_of_invoke hspec hs, runAlone_of_invoke hspec ht, Outcome.seen_ofAnswer,
      Outcome.seen_ofAnswer, hanswer]

/-- The loop over members comes to the same elsewhere. -/
theorem Loop.seen_eq {label : String} {ms : List Member} {merged merged' : Suite}
    {calls : List (EngineCall σ)} {o : Outcome} (h : Loop e label ms merged s calls o s')
    (he : e.Steady f) (hmerged : merged'.seen f = merged.seen f)
    (hst : s.context.unlogged = t.context.unlogged) :
    (runMembers e label ms merged' t).1.seen f = o.seen f := by
  induction h generalizing merged' t with
  | done => exact congrArg Outcome.suite hmerged
  | @refused m _ _ _ _ _ call =>
    rw [m.invocation_congr hst] at call
    obtain ⟨t', hcall⟩ := he.refused hst call
    rw [runMembers_of_refused hcall]
  | @overflow m _ merged r _ _ call absorb =>
    rw [m.invocation_congr hst] at call
    obtain ⟨r', t', hcall, hr, -⟩ := he.answered hst call
    have hname : r'.name = r.name := show (r'.seen f).name = (r.seen f).name by rw [hr]
    have habsorb : (merged'.absorb? r').map (Suite.seen f) = none := by
      rw [Suite.seen_absorb?, hmerged, hr, ← Suite.seen_absorb?, absorb]
      rfl
    rw [runMembers_of_overflow hcall (Option.map_eq_none_iff.1 habsorb), hname]
  | @next m _ merged next r _ _ _ _ _ call absorb rest ih =>
    rw [m.invocation_congr hst] at call
    obtain ⟨r', t', hcall, hr, hst'⟩ := he.answered hst call
    have habsorb : (merged'.absorb? r').map (Suite.seen f) = some (next.seen f) := by
      rw [Suite.seen_absorb?, hmerged, hr, ← Suite.seen_absorb?, absorb]
      rfl
    obtain ⟨next', hnext, hseen⟩ := Option.map_eq_some_iff.1 habsorb
    rw [runMembers_of_next hcall hnext]
    exact ih hseen hst'

/-- What is seen of the outcome of a unit. -/
def RunUnit.seen? (f : Option Timestamp → Option Timestamp) (e : Engine σ) (now : Timestamp)
    (d : Definition) (s : Session σ) (u : RunUnit) : Option Outcome :=
  (u.run e now d s).map fun p => p.1.seen f

/-- **A unit comes to the same in two runs**, as far as it is seen. -/
theorem RunUnit.seen?_congr {u : RunUnit} (hu : d.Runnable u) (he : e.Steady f)
    (hnow : f (some now) = f (some now')) (hst : s.context.unlogged = t.context.unlogged) :
    u.seen? f e now d s = u.seen? f e now' d t := by
  cases u with
  | group name =>
    obtain ⟨ms, hms, -⟩ := Definition.WellNested.performs e "" hu [] none
    obtain ⟨calls, o, s', hloop⟩ := exists_loop e (group name).label ms (.empty now name) s
    have hempty : (Suite.empty now' name).seen f = (Suite.empty now name).seen f := by
      rw [Suite.seen, Suite.seen, Suite.empty, Suite.empty, hnow]
    rw [seen?, seen?, run_group hu hms, run_group hu hms, Option.map_some, Option.map_some,
      hloop.runMembers_eq, hloop.seen_eq he hempty hst]
  | suite name tests => exact congrArg some (runAlone_seen he hst _ "suite" name tests)
  | test name => exact congrArg some (runAlone_seen he hst _ "test" name [])

/-- A unit leaves the context alone if the engine does. -/
theorem RunUnit.run_context (he : e.Steady f) {u : RunUnit} {o : Outcome}
    (h : u.run e now d s = some (o, s')) : s'.context = s.context :=
  run_preserves (he.preserves s.context) h rfl

/-! ## Units in sequence -/

/-- **Each unit comes to what it would come to by itself** from where the run begins. -/
theorem runAll_seen {us : List RunUnit} (hus : ∀ u ∈ us, d.Runnable u) (he : e.Steady f)
    (hnow : f (some now) = f (some now')) (hst : s.context.unlogged = t.context.unlogged)
    {os : List Outcome} (h : runAll e now d us s = some (os, s')) :
    (os.map (Outcome.seen f)).map some = us.map (RunUnit.seen? f e now' d t) := by
  induction us generalizing s os with
  | nil =>
    cases h
    rfl
  | cons u us ih =>
    obtain ⟨hu, hus⟩ := List.forall_mem_cons.1 hus
    obtain ⟨o, s₁, os', hrun, hrest, rfl⟩ := runAll_cons_eq_some_iff.1 h
    have hcontext : s₁.context = s.context := RunUnit.run_context he hrun
    have hst₁ : ({ s₁ with context := s₁.context.record u.label } : Session σ).context.unlogged =
        t.context.unlogged := by
      rw [hcontext, ← hst]
      rfl
    have ho : u.seen? f e now' d t = some (o.seen f) := by
      rw [← RunUnit.seen?_congr hu he hnow hst, RunUnit.seen?, hrun]
      rfl
    rw [List.map_cons, List.map_cons, List.map_cons, ih hus hst₁ hrest, ho]

/-! ## Sums in another order -/

theorem totalCounts_map_seen (rs : List Suite) :
    totalCounts (rs.map (Suite.seen f)) = totalCounts rs := by
  simp [totalCounts, Suite.seen, Function.comp_def]

theorem totalCounts_perm {rs rs' : List Suite} (h : rs.Perm rs') :
    totalCounts rs = totalCounts rs' := by
  rw [totalCounts, totalCounts, (h.map _).sum_eq, (h.map _).sum_eq, (h.map _).sum_eq,
    (h.map _).sum_eq]

/-- Reports do not depend on the order of the outcomes if all suites fit together. -/
theorem Report.exists_fold?_of_perm {os os' : List Outcome}
    (h : (os'.map (Outcome.seen f)).Perm (os.map (Outcome.seen f)))
    (hfits : (totalCounts (os.filterMap Outcome.suite?)).Fits) (began began' : Timestamp)
    (name version : String) :
    ∃ r r', (start began name version).fold? os = .ok r ∧
      (start began' name version).fold? os' = .ok r' ∧ r'.counts = r.counts ∧
      (r'.suites.map (Suite.seen f)).Perm (r.suites.map (Suite.seen f)) ∧
        r'.errors.Perm r.errors := by
  have hsuites : ((os'.filterMap Outcome.suite?).map (Suite.seen f)).Perm
      ((os.filterMap Outcome.suite?).map (Suite.seen f)) := by
    rw [← Outcome.filterMap_suite?_seen, ← Outcome.filterMap_suite?_seen]
    exact h.filterMap _
  have herrors : (os'.filterMap Outcome.error?).Perm (os.filterMap Outcome.error?) := by
    rw [← Outcome.filterMap_error?_seen (f := f) os', ← Outcome.filterMap_error?_seen (f := f) os]
    exact h.filterMap _
  have hcounts : totalCounts (os'.filterMap Outcome.suite?) =
      totalCounts (os.filterMap Outcome.suite?) := by
    rw [← totalCounts_map_seen (f := f), totalCounts_perm hsuites, totalCounts_map_seen]
  refine ⟨_, _, fold?_of_open rfl os, fold?_of_open rfl os', ?_⟩
  rw [foldl_take_start_of_fits hfits, foldl_take_start_of_fits (hcounts ▸ hfits)]
  exact ⟨hcounts, hsuites, herrors⟩

/-! ## Another order -/

/-- Some units in another order. -/
def reordered (us : List RunUnit) (π : Equiv.Perm (Fin us.length)) : List RunUnit :=
  List.ofFn (us.get ∘ π)

theorem reordered_perm (us : List RunUnit) (π : Equiv.Perm (Fin us.length)) :
    (reordered us π).Perm us := by
  have hperm : (reordered us π).Perm (List.ofFn us.get) := π.ofFn_comp_perm us.get
  rwa [List.ofFn_get] at hperm

theorem getElem?_reordered (us : List RunUnit) (π : Equiv.Perm (Fin us.length))
    (i : Fin us.length) :
    (reordered us π)[i.val]? = us[(π i).val]? := by
  rw [reordered, List.getElem?_ofFn, dif_pos i.isLt, List.getElem?_eq_getElem (π i).isLt]
  rfl

/-- **The order of compiled units does not matter** to a steady engine. Run in another order, with
another clock, each unit comes to what it came to before, as far as it is seen. If all suites fit
together, the reports have the same counts, the same suites as far as they are seen, and the same
errors, each as many times. -/
theorem runAll_permuted {us : List RunUnit}
    (hus : ∀ u ∈ us, ∃ sel units, d.compile sel = .ok units ∧ u ∈ units) (he : e.Steady f)
    (now now' : Timestamp) (hnow : f (some now) = f (some now')) (s t : Session σ)
    (hst : s.context.unlogged = t.context.unlogged) (π : Equiv.Perm (Fin us.length)) :
    ∃ os s' os' t', runAll e now d us s = some (os, s') ∧
      runAll e now' d (reordered us π) t = some (os', t') ∧
      os.length = us.length ∧ os'.length = us.length ∧
      (∀ i : Fin us.length, os'[i.val]?.map (Outcome.seen f) =
        os[(π i).val]?.map (Outcome.seen f)) ∧
      ((totalCounts (os.filterMap Outcome.suite?)).Fits → ∀ began began' name version, ∃ r r',
        (Report.start began name version).fold? os = .ok r ∧
        (Report.start began' name version).fold? os' = .ok r' ∧
        r'.counts = r.counts ∧ (r'.suites.map (Suite.seen f)).Perm (r.suites.map (Suite.seen f)) ∧
        r'.errors.Perm r.errors) := by
  have hrunnable : ∀ u ∈ us, d.Runnable u := by
    intro u hu
    obtain ⟨sel, units, hcompile, hmem⟩ := hus u hu
    obtain ⟨hunits, rfl⟩ := Definition.compile_eq_ok_iff.1 hcompile
    exact hunits u hmem
  have hperm : (reordered us π).Perm us := reordered_perm us π
  have hrunnable' : ∀ u ∈ reordered us π, d.Runnable u :=
    fun u hu => hrunnable u (hperm.mem_iff.1 hu)
  obtain ⟨⟨os, s'⟩, hrun⟩ := Option.isSome_iff_exists.1 (runAll_isSome e now hrunnable s)
  obtain ⟨⟨os', t'⟩, hrun'⟩ := Option.isSome_iff_exists.1 (runAll_isSome e now' hrunnable' t)
  -- both runs come to what the units come to by themselves from where the second one begins
  have hseen := runAll_seen hrunnable he hnow hst hrun
  have hseen' := runAll_seen hrunnable' he rfl rfl hrun'
  refine ⟨os, s', os', t', hrun, hrun', length_of_runAll hrun,
    (length_of_runAll hrun').trans hperm.length_eq, fun i => ?_,
    fun hfits began began' name version => ?_⟩
  · have hplace : (os'.map (Outcome.seen f))[i.val]?.map some =
        (os.map (Outcome.seen f))[(π i).val]?.map some := by
      rw [← List.getElem?_map, ← List.getElem?_map, hseen, hseen', List.getElem?_map,
        List.getElem?_map, getElem?_reordered]
    rw [← List.getElem?_map, ← List.getElem?_map]
    exact Option.map_injective (Option.some_injective _) hplace
  · have houtcomes : (os'.map (Outcome.seen f)).Perm (os.map (Outcome.seen f)) := by
      rw [← List.map_perm_map_iff (Option.some_injective _), hseen, hseen']
      exact hperm.map _
    exact Report.exists_fold?_of_perm houtcomes hfits began began' name version

/-- A group and a test, and then the test and the group at another time. -/
theorem runAll_permuted_twice :
    let us : List RunUnit := [.group "outer", .test "a"]
    let swap : Equiv.Perm (Fin us.length) := Equiv.swap ⟨0, by decide⟩ ⟨1, by decide⟩
    (∀ u ∈ us, ∃ sel units, twice.compile sel = .ok units ∧ u ∈ units) ∧
    passing.Steady (fun _ => none) ∧
    ∃ os s' os' t',
      runAll passing ⟨2024, 1, 1, 0, 0, 0, 0⟩ twice us ⟨{ baseDir := ⟨"/"⟩ }, ()⟩ = some (os, s') ∧
      runAll passing ⟨2025, 1, 1, 0, 0, 0, 0⟩ twice (reordered us swap) ⟨{ baseDir := ⟨"/"⟩ }, ()⟩ =
        some (os', t') ∧
      os'[0]?.map (Outcome.seen fun _ => none) = os[1]?.map (Outcome.seen fun _ => none) := by
  intro us swap
  have hus : ∀ u ∈ us, ∃ sel units, twice.compile sel = .ok units ∧ u ∈ units := by
    have htest : twice.compile { tests := ["a"] } = .ok [.test "a"] := rfl
    exact List.forall_mem_cons.2 ⟨⟨_, _, compile_twice, List.mem_cons_self⟩,
      List.forall_mem_singleton.2 ⟨_, _, htest, List.mem_cons_self⟩⟩
  have hsteady : passing.Steady (fun _ => none) := .of_answers (fun _ _ => rfl) fun _ _ _ => rfl
  obtain ⟨os, s', os', t', hrun, hrun', -, -, hplaces, -⟩ :=
    runAll_permuted hus hsteady ⟨2024, 1, 1, 0, 0, 0, 0⟩ ⟨2025, 1, 1, 0, 0, 0, 0⟩ rfl
      ⟨{ baseDir := ⟨"/"⟩ }, ()⟩ ⟨{ baseDir := ⟨"/"⟩ }, ()⟩ rfl swap
  have hswap : swap ⟨0, by decide⟩ = ⟨1, by decide⟩ := Equiv.swap_apply_left _ _
  have hfirst := hplaces ⟨0, by decide⟩
  rw [hswap] at hfirst
  exact ⟨hus, hsteady, os, s', os', t', hrun, hrun', hfirst⟩

end TestOrchestrator
