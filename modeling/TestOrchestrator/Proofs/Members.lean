import TestOrchestrator.Proofs.SideBySide
import TestOrchestrator.Sequence
/-!
# The members of a group

The run of a group goes down into the groups in it and back. Written out it is one loop over a flat
list: the group's tests and then, for each group in it, the list of that group.

* `Definition.members? d outer name via` is the flat list. Each member knows the groups around it,
  and so the parameters on the way to it; `members_nil_of` says that these groups do lead to it.
* `runMembers e label ms` is the loop: one call for each member, and the merge of its suite.
* `WellNested.performs` says that the run of a group is the loop over its members, wherever it
  starts and whatever the engine does.
-/

namespace TestOrchestrator

/-! ## Flat lists -/

/-- A group that a run is inside. -/
structure Enclosure where
  name : String
  params : Params
  /-- The parameters of the reference by which the group was entered; the first group is entered by
  none. -/
  via : Option Params

/-- The parameters that a group adds; later ones go before earlier ones. -/
def Enclosure.layers (g : Enclosure) : List Params := g.params :: g.via.toList

/-- A test that a group lists, with all groups around it. -/
structure Member where
  /-- The groups around the group that lists the test, the outermost first. -/
  outer : List Enclosure
  /-- The group that lists the test. -/
  group : Enclosure
  test : Ref
  spec : TestSpec

namespace Member

/-- The parameters on the way to a test; later ones go before earlier ones. -/
def layers (m : Member) : List Params :=
  (m.outer ++ [m.group]).flatMap Enclosure.layers ++ [m.test.params]

/-- What the engine is asked to run. -/
def invocation (m : Member) (c : Context) : Invocation := .of c m.test.name m.spec m.layers

end Member

/-- The members of a group inside others: its tests and then the members of its groups, all in the
order in which they are listed. -/
def Definition.members? (d : Definition) (outer : List Enclosure) (name : String)
    (via : Option Params) : Option (List Member) := do
  let g ← d.group? name
  let here : Enclosure := ⟨name, g.params, via⟩
  let tests ← g.tests.mapM fun t => (d.test? t.name).map (Member.mk outer here t)
  let groups ← g.groups.mapM fun r => d |>.members? (outer ++ [here]) r.name (some r.params)
  return tests ++ groups.flatten
partial_fixpoint

/-! ## The way to a member -/

/-- Groups inside each other, from an outermost one inwards. Each was entered by a reference that
the one before it lists, the first by none. -/
inductive Definition.Chain (d : Definition) (root : String) : List Enclosure → Prop
  | root {g : GroupSpec} (defined : d.group? root = some g) : Chain d root [⟨root, g.params, none⟩]
  | enter {gs : List Enclosure} {outer : Enclosure} {g g' : GroupSpec} {r : Ref}
      (chain : Chain d root (gs ++ [outer])) (defined : d.group? outer.name = some g)
      (listed : r ∈ g.groups) (defined' : d.group? r.name = some g') :
      Chain d root (gs ++ [outer] ++ [⟨r.name, g'.params, some r.params⟩])

/-- A member is there: a group leads to the group that lists it, by the groups around it. -/
structure Member.Of (m : Member) (d : Definition) (root : String) : Prop where
  chain : d.Chain root (m.outer ++ [m.group])
  listed : ∃ g, d.group? m.group.name = some g ∧ m.test ∈ g.tests
  defined : d.test? m.test.name = some m.spec

variable {d : Definition} {root name : String} {outer : List Enclosure} {via : Option Params}
  {ms : List Member}

theorem Definition.members_of (h : d.members? outer name via = some ms)
    (hchain : ∀ g, d.group? name = some g → d.Chain root (outer ++ [⟨name, g.params, via⟩])) :
    ∀ m ∈ ms, m.Of d root := by
  revert hchain
  refine members?.partial_correctness d (fun outer name via ms =>
    (∀ g, d.group? name = some g → d.Chain root (outer ++ [⟨name, g.params, via⟩])) →
      ∀ m ∈ ms, m.Of d root) ?_ outer name via ms h
  intro below ih outer name via ms h hchain m hm
  simp only [Option.bind_eq_bind, Option.bind_eq_some_iff, Option.pure_def, Option.some.injEq] at h
  obtain ⟨g, hg, ts, hts, mss, hmss, rfl⟩ := h
  rcases List.mem_append.1 hm with hm | hm
  · obtain ⟨t, ht, htm⟩ := exists_of_mem_right (forall₂_of_mapM hts) hm
    obtain ⟨spec, hspec, rfl⟩ := Option.map_eq_some_iff.1 htm
    exact ⟨hchain g hg, ⟨g, hg, ht⟩, hspec⟩
  · obtain ⟨ms', hms', hm⟩ := List.mem_flatten.1 hm
    obtain ⟨r, hr, hbelow⟩ := exists_of_mem_right (forall₂_of_mapM hmss) hms'
    exact ih _ _ _ _ hbelow (fun g' hg' => .enter (hchain g hg) hg hr hg') m hm

/-- **Every member of a group is there.** -/
theorem Definition.members_nil_of (h : d.members? [] name none = some ms) : ∀ m ∈ ms, m.Of d name :=
  members_of h fun _ hg => .root hg

/-! ## The loop -/

variable {σ : Type}

/-- Runs members in order and merges their suites. -/
def runMembers (e : Engine σ) (label : String) :
    List Member → Suite → Session σ → Outcome × Session σ
  | [], merged, s => (.suite merged, s)
  | m :: ms, merged, s =>
    match e.invoke (m.invocation s.context) s with
    | (.error why, s) => (.error ⟨label, inGroup m.test.name m.group.name why⟩, s)
    | (.ok suite, s) =>
      match merged.absorb? suite with
      | none => (.error ⟨label, Suite.overflowMessage suite.name⟩, s)
      | some merged => runMembers e label ms merged s

variable (e : Engine σ) (label : String)

theorem runMembers_append (ms ms' : List Member) (merged : Suite) (s : Session σ) :
    runMembers e label (ms ++ ms') merged s =
      match runMembers e label ms merged s with
      | (.suite merged, s) => runMembers e label ms' merged s
      | (.error err, s) => (.error err, s) := by
  induction ms generalizing merged s with
  | nil => rfl
  | cons m ms ih =>
    simp only [List.cons_append, runMembers]
    rcases e.invoke (m.invocation s.context) s with ⟨answer, s⟩
    cases answer with
    | error why => rfl
    | ok suite =>
      dsimp only
      cases merged.absorb? suite with
      | none => rfl
      | some merged => exact ih merged s

/-! ## Runs that are loops -/

/-- From inside groups that add some layers, a part of a run does what the loop over some members
does. -/
def Performs (x : GroupRun σ Unit) (layers : List Params) (ms : List Member) : Prop :=
  ∀ p : Progress σ, p.layers = layers →
    match runMembers e label ms p.merged p.session with
    | (.suite merged, s) => x.runFrom p = some (.ok (), { p with session := s, merged })
    | (.error err, s) => ∃ q, x.runFrom p = some (.error err, q) ∧ q.session = s

namespace Performs

variable {e label} {x y : GroupRun σ Unit} {layers : List Params} {ms ms' : List Member}

theorem pure : Performs e label (Pure.pure ()) layers [] := fun _ _ => rfl

theorem bind (hx : Performs e label x layers ms) (hy : Performs e label y layers ms') :
    Performs e label (x >>= fun _ => y) layers (ms ++ ms') := by
  intro p hp
  have hx := hx p hp
  rw [runMembers_append, GroupRun.runFrom_bind]
  generalize runMembers e label ms p.merged p.session = r at hx ⊢
  obtain ⟨o, s⟩ := r
  cases o with
  | error err =>
    obtain ⟨q, hq, hs⟩ := hx
    exact ⟨q, by rw [hq]; rfl, hs⟩
  | suite merged =>
    dsimp only at hx
    rw [hx]
    exact hy { p with session := s, merged } hp

theorem forM {α : Type} {f : α → GroupRun σ Unit} {xs : List α} {mss : List (List Member)}
    (h : List.Forall₂ (fun x ms => Performs e label (f x) layers ms) xs mss) :
    Performs e label (forM xs f) layers mss.flatten := by
  induction h with
  | nil => exact .pure
  | cons hx _ ih =>
    rw [List.forM_cons, List.flatten_cons]
    exact hx.bind ih

end Performs

theorem runMember_performs {params : Params} {t : Ref} {spec : TestSpec}
    (h : d.test? t.name = some spec) :
    Performs e label (runMember e d label name t)
      ((outer ++ [(⟨name, params, via⟩ : Enclosure)]).flatMap Enclosure.layers)
      [⟨outer, ⟨name, params, via⟩, t, spec⟩] := by
  intro p hp
  rw [runFrom_runMember e d label h, runMembers, Member.invocation, Member.layers, hp]
  rcases e.invoke _ p.session with ⟨answer, s⟩
  cases answer with
  | error why => exact ⟨_, rfl, rfl⟩
  | ok suite =>
    dsimp only
    cases p.merged.absorb? suite with
    | none => exact ⟨_, rfl, rfl⟩
    | some merged => rfl

/-- Going into a group and back out leaves the layers as they were. -/
theorem runGroup_performs {g : GroupSpec} (hg : d.group? name = some g)
    (h : Performs e label (runInside e d label name g)
      ((outer ++ [(⟨name, g.params, via⟩ : Enclosure)]).flatMap Enclosure.layers) ms) :
    Performs e label (runGroup e d label name via) (outer.flatMap Enclosure.layers) ms := by
  intro p hp
  have h := h (p.enter g via) (by simp [Progress.enter, Enclosure.layers, hp])
  have hsame : runMembers e label ms (p.enter g via).merged (p.enter g via).session =
      runMembers e label ms p.merged p.session := rfl
  rw [hsame] at h
  rw [runFrom_runGroup e d label hg]
  generalize runMembers e label ms p.merged p.session = r at h ⊢
  obtain ⟨o, s⟩ := r
  cases o with
  | error err =>
    -- the layers stay as they were at the failure; nothing reads them after it
    obtain ⟨q, hq, hs⟩ := h
    exact ⟨q, by rw [hq]; rfl, hs⟩
  | suite merged =>
    dsimp only at h ⊢
    rw [h]
    simp [Progress.leave, Progress.enter]

theorem Definition.members?_of_defined {g : GroupSpec} {mss : List (List Member)}
    (hg : d.group? name = some g)
    (hms : g.tests.mapM (fun t => (d.test? t.name).map (Member.mk outer ⟨name, g.params, via⟩ t)) =
      some ms)
    (hmss : g.groups.mapM (fun r =>
      d.members? (outer ++ [⟨name, g.params, via⟩]) r.name (some r.params)) = some mss) :
    d.members? outer name via = some (ms ++ mss.flatten) := by
  rw [members?, hg]
  simp [hms, hmss]

/-- **The run of a group is the loop over its members** if a walk accepts the group. -/
theorem Definition.WellNested.performs {path : List String} (w : d.WellNested path name)
    (outer : List Enclosure) (via : Option Params) :
    ∃ ms, d.members? outer name via = some ms ∧
      Performs e label (runGroup e d label name via) (outer.flatMap Enclosure.layers) ms := by
  induction w generalizing outer via with
  | @intro path name g fresh defined tests groups ih =>
    have hmember : ∀ t ∈ g.tests, ∃ m,
        (d.test? t.name).map (Member.mk outer ⟨name, g.params, via⟩ t) = some m ∧
          Performs e label (runMember e d label name t)
            ((outer ++ [(⟨name, g.params, via⟩ : Enclosure)]).flatMap Enclosure.layers) [m] := by
      intro t ht
      obtain ⟨spec, hspec⟩ := Option.isSome_iff_exists.1 (tests t ht)
      refine ⟨⟨outer, ⟨name, g.params, via⟩, t, spec⟩, ?_, runMember_performs e label hspec⟩
      rw [hspec, Option.map_some]
    obtain ⟨ms, hms, htests⟩ := exists_mapM_eq_some hmember
    obtain ⟨mss, hmss, hgroups⟩ := exists_mapM_eq_some fun r hr =>
      ih r hr (outer ++ [⟨name, g.params, via⟩]) (some r.params)
    refine ⟨_, members?_of_defined defined hms hmss, runGroup_performs e label defined ?_⟩
    -- the tests are loops over one member each, the groups below over theirs
    have hflat : (ms.map fun m => [m]).flatten = ms := List.flatMap_singleton' ms
    rw [← hflat]
    exact (Performs.forM (List.forall₂_map_right_iff.2 htests)).bind (.forM hgroups)

/-- A group by itself is the loop over its members, from an empty suite. -/
theorem RunUnit.run_group (w : d.WellNested [] name) (hms : d.members? [] name none = some ms)
    (e : Engine σ) (now : Timestamp) (s : Session σ) :
    (group name).run e now d s =
      some (runMembers e (group name).label ms (.empty now name) s) := by
  obtain ⟨ms', hms', hperforms⟩ := w.performs e (group name).label [] none
  cases Option.some.inj (hms.symm.trans hms')
  have h := hperforms ⟨s, [], .empty now name⟩ rfl
  rw [run, runWhole]
  dsimp only at h
  generalize runMembers e (group name).label ms (.empty now name) s = r at h ⊢
  obtain ⟨o, s'⟩ := r
  cases o with
  | suite merged =>
    dsimp only at h
    rw [h]
    rfl
  | error err =>
    obtain ⟨q, hq, hs⟩ := h
    rw [hq, ← hs]
    rfl

end TestOrchestrator
