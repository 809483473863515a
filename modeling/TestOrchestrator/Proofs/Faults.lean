import Mathlib.Data.List.Chain
import Mathlib.Data.List.Nodup
import TestOrchestrator.Proofs.Selectable
/-!
# Why a selection does not compile

* `Definition.Fault d path name e` says what is wrong with a group, seen from inside the groups on a
  path: the first thing that the walk finds. `visit_eq_error_iff`: the walk stops with just this
  error.
* `Definition.Trail d s path name` is what the path of a walk tells: a chain of distinct groups,
  each listed by the one before it, from a selected group to the one that the walk is at.
* `compile_eq_error_iff`: the error of a selection is that of its first unit that cannot be run.
* `truthful_of_compile_eq_error`: what the error names is there, or missing, as it says.
-/

namespace TestOrchestrator

open Relation

/-- What a list has after a first part is at its head, or after a first part of its tail. -/
theorem exists_split_cons_iff {α : Type} {P Q : α → Prop} {x : α} {xs : List α} :
    (∃ before y after, x :: xs = before ++ y :: after ∧ (∀ z ∈ before, P z) ∧ Q y) ↔
      Q x ∨ P x ∧ ∃ before y after, xs = before ++ y :: after ∧ (∀ z ∈ before, P z) ∧ Q y := by
  constructor
  · rintro ⟨_ | ⟨z, before⟩, y, after, h, hbefore, hy⟩
    · cases h
      exact .inl hy
    · cases h
      obtain ⟨hx, hbefore⟩ := List.forall_mem_cons.1 hbefore
      exact .inr ⟨hx, before, y, after, rfl, hbefore, hy⟩
  · rintro (hx | ⟨hx, before, y, after, rfl, hbefore, hy⟩)
    · exact ⟨[], x, xs, rfl, nofun, hx⟩
    · exact ⟨x :: before, y, after, rfl, List.forall_mem_cons.2 ⟨hx, hbefore⟩, hy⟩

/-- A pass over a list fails at the first element that fails. -/
theorem forM_eq_error_iff {ε α : Type} {f : α → Except ε Unit} {xs : List α} {e : ε} :
    forM xs f = .error e ↔
      ∃ before x after, xs = before ++ x :: after ∧ (∀ y ∈ before, f y = .ok ()) ∧
        f x = .error e := by
  induction xs with
  | nil => simp [pure, Except.pure]
  | cons x xs ih =>
    rw [exists_split_cons_iff, ← ih, List.forM_cons]
    cases f x <;> simp [bind, Except.bind]

namespace Definition

variable {d : Definition} {s : Selection} {path : List String} {name : String} {e : SelectionError}

/-! ## Faults -/

theorem checkTest_eq_error_iff {e' : SelectionError} :
    d.checkTest name e = .error e' ↔ d.test? name = none ∧ e' = e := by
  unfold checkTest
  cases d.test? name <;> simp [eq_comm]

theorem checkTests_eq_error_iff {tests : List Ref} : d.checkTests name tests = .error e ↔
    ∃ before t after, tests = before ++ t :: after ∧ (∀ u ∈ before, (d.test? u.name).isSome) ∧
      d.test? t.name = none ∧ e = .unknownGroupTest name t.name := by
  simp only [checkTests, List.forM_eq_forM, forM_eq_error_iff, checkTest_eq_ok_iff,
    checkTest_eq_error_iff]

/-- What is wrong with a group, seen from inside the groups on a path. Whatever the walk comes to
before the fault is as it must be. -/
inductive Fault (d : Definition) : List String → String → SelectionError → Prop
  | cycle {path : List String} {name : String} (inside : name ∈ path) :
      Fault d path name (.groupCycle (path ++ [name]))
  | unknown {path : List String} {name : String} (fresh : name ∉ path)
      (undefined : d.group? name = none) :
      Fault d path name (.unknownGroup name)
  | member {path : List String} {name : String} {g : GroupSpec} {before after : List Ref} {t : Ref}
      (fresh : name ∉ path) (defined : d.group? name = some g)
      (listed : g.tests = before ++ t :: after)
      (fine : ∀ u ∈ before, (d.test? u.name).isSome) (undefined : d.test? t.name = none) :
      Fault d path name (.unknownGroupTest name t.name)
  | inner {path : List String} {name : String} {g : GroupSpec} {before after : List Ref} {r : Ref}
      {e : SelectionError} (fresh : name ∉ path) (defined : d.group? name = some g)
      (tests : ∀ t ∈ g.tests, (d.test? t.name).isSome) (listed : g.groups = before ++ r :: after)
      (fine : ∀ q ∈ before, d.WellNested (path ++ [name]) q.name)
      (fault : Fault d (path ++ [name]) r.name e) :
      Fault d path name e

/-- The walks through the groups of a group stop at the first that finds a fault. -/
theorem foldlM_visit_eq_error_iff {rs : List Ref} :
    (rs.foldlM (fun path r => d.visit path r.name) path).run = some (.error e) ↔
      ∃ before r after, rs = before ++ r :: after ∧ (∀ q ∈ before, d.WellNested path q.name) ∧
        (d.visit path r.name).run = some (.error e) := by
  induction rs with
  | nil => simp [pure, ExceptT.pure, ExceptT.mk, ExceptT.run]
  | cons r rs ih =>
    rw [exists_split_cons_iff, ← ih, List.foldlM_cons, ExceptT.run_bind]
    rcases d.visit_cases path r.name with ⟨e', he⟩ | ⟨hok, hwell⟩
    · have hnot : ¬d.WellNested path r.name := fun w => by cases he.symm.trans w.visit
      simp [he, hnot]
    · simp [hok, hwell]

theorem Fault.visit (h : d.Fault path name e) : (d.visit path name).run = some (.error e) := by
  induction h with
  | cycle inside => exact visit_of_mem inside
  | unknown fresh undefined => exact visit_of_undefined fresh undefined
  | member fresh defined listed fine undefined =>
    rw [visit_of_defined fresh defined,
      checkTests_eq_error_iff.2 ⟨_, _, _, listed, fine, undefined, rfl⟩]
  | inner fresh defined tests listed fine _ ih =>
    rw [visit_of_defined fresh defined, checkTests_eq_ok_iff.2 tests,
      foldlM_visit_eq_error_iff.2 ⟨_, _, _, listed, fine, ih⟩]
    rfl

/-- **A walk stops with an error** just when that is what is wrong. -/
theorem visit_eq_error_iff : (d.visit path name).run = some (.error e) ↔ d.Fault path name e := by
  refine ⟨fun h => ?_, Fault.visit⟩
  induction hn : d.room path using Nat.strongRecOn generalizing path name e with
  | ind n ih =>
  subst hn
  by_cases hmem : name ∈ path
  · cases (visit_of_mem hmem).symm.trans h
    exact .cycle hmem
  cases hg : d.group? name with
  | none =>
    cases (visit_of_undefined hmem hg).symm.trans h
    exact .unknown hmem hg
  | some g =>
    rw [visit_of_defined hmem hg] at h
    cases hts : d.checkTests name g.tests with
    | error e' =>
      rw [hts] at h
      cases h
      obtain ⟨before, t, after, hlisted, hfine, hundefined, rfl⟩ := checkTests_eq_error_iff.1 hts
      exact .member hmem hg hlisted hfine hundefined
    | ok u =>
      rw [hts] at h
      have hfold : (g.groups.foldlM (fun path r => d.visit path r.name) (path ++ [name])).run =
          some (.error e) := by
        obtain ⟨x, hx, h⟩ := Option.bind_eq_some_iff.1 h
        cases x <;> cases h
        exact hx
      obtain ⟨before, r, after, hlisted, hfine, hr⟩ := foldlM_visit_eq_error_iff.1 hfold
      -- the walk below has this group on its path, which leaves less room
      exact .inner hmem hg (checkTests_eq_ok_iff.1 hts) hlisted hfine
        (ih _ (room_enter hmem hg) hr rfl)

/-! ## What the path of a walk tells -/

/-- The path of a walk that started at a selected group and is about to enter a group. -/
structure Trail (d : Definition) (s : Selection) (path : List String) (name : String) : Prop where
  head : ∃ root ∈ s.groups, (path ++ [name]).head? = some root
  chain : (path ++ [name]).IsChain d.Nests
  distinct : path.Nodup
  defined : ∀ g ∈ path, (d.group? g).isSome
  reached : d.Leads s name

namespace Trail

/-- Nothing is on the path of a walk at the group that it starts at. -/
theorem start (selected : name ∈ s.groups) : d.Trail s [] name :=
  ⟨⟨name, selected, rfl⟩, .singleton name, .nil, nofun, name, selected, .refl⟩

/-- The walk enters a group that is new and defined, on its way to a group that this one lists. -/
theorem enter {g : GroupSpec} {r : Ref} (t : d.Trail s path name) (fresh : name ∉ path)
    (defined : d.group? name = some g) (listed : r ∈ g.groups) :
      d.Trail s (path ++ [name]) r.name := by
  have hnests : d.Nests name r.name := ⟨g, defined, r, listed, rfl⟩
  obtain ⟨root, hroot, hhead⟩ := t.head
  obtain ⟨start, hstart, hreached⟩ := t.reached
  refine ⟨⟨root, hroot, ?_⟩, ?_, ?_, ?_, start, hstart, hreached.tail hnests⟩
  · rw [List.head?_append, hhead]
    rfl
  · refine List.isChain_append.2 ⟨t.chain, .singleton r.name, fun x hx y hy => ?_⟩
    rw [List.getLast?_concat] at hx
    cases hx
    cases hy
    exact hnests
  · rw [← List.concat_eq_append]
    exact t.distinct.concat fresh
  · refine List.forall_mem_append.2 ⟨t.defined, List.forall_mem_singleton.2 ?_⟩
    rw [defined]
    rfl

end Trail

/-! ## What errors say -/

/-- Groups each of which lists the next one, up to the first that was there before. -/
structure IsCycle (d : Definition) (names : List String) : Prop where
  chain : names.IsChain d.Nests
  defined : ∀ g ∈ names.dropLast, (d.group? g).isSome
  distinct : names.dropLast.Nodup
  closed : ∃ g ∈ names.dropLast, names.getLast? = some g

/-- What an error says of a selection. Suites and tests by themselves come after the groups. -/
def Truthful (d : Definition) (s : Selection) : SelectionError → Prop
  | .groupCycle names => d.IsCycle names ∧ ∃ root ∈ s.groups, names.head? = some root
  | .unknownGroup g =>
    d.group? g = none ∧ (g ∈ s.groups ∨ ∃ outer, d.Leads s outer ∧ d.Nests outer g)
  | .unknownGroupTest group test =>
    d.Leads s group ∧ (∃ g, d.group? group = some g ∧ ∃ t ∈ g.tests, t.name = test) ∧
      d.test? test = none
  | .unknownTest test =>
    test ∈ s.tests ∧ (∀ c, s.suite = some c → c.name = "") ∧ d.test? test = none ∧
      ∀ g ∈ s.groups, d.checkGroup g = .ok ()
  | .unknownSuite suite =>
    (∃ c, s.suite = some c ∧ c.name = suite) ∧ suite ≠ "" ∧ d.test? suite = none ∧
      ∀ g ∈ s.groups, d.checkGroup g = .ok ()

/-- **A fault is where its error says**: the path of the walk is the evidence. -/
theorem Fault.truthful (h : d.Fault path name e) (t : d.Trail s path name) : d.Truthful s e := by
  induction h with
  | @cycle path name inside =>
    refine ⟨⟨t.chain, ?_, ?_, name, ?_, List.getLast?_concat⟩, t.head⟩
    all_goals rw [List.dropLast_concat]
    · exact t.defined
    · exact t.distinct
    · exact inside
  | @unknown path name _ undefined =>
    obtain ⟨root, hroot, hreached⟩ := t.reached
    refine ⟨undefined, ?_⟩
    rcases ReflTransGen.cases_tail hreached with rfl | ⟨outer, houter, hnests⟩
    · exact .inl hroot
    · exact .inr ⟨outer, ⟨root, hroot, houter⟩, hnests⟩
  | @member path name g before after t' _ defined listed _ undefined =>
    have hmem : t' ∈ g.tests := by simp [listed]
    exact ⟨t.reached, ⟨g, defined, t', hmem, rfl⟩, undefined⟩
  | @inner path name g before after r e fresh defined _ listed _ _ ih =>
    have hmem : r ∈ g.groups := by simp [listed]
    exact ih (t.enter fresh defined hmem)

/-! ## Selections -/

/-- What is wrong with a unit. -/
def Blocks (d : Definition) (e : SelectionError) : RunUnit → Prop
  | .group name => d.Fault [] name e
  | .suite name _ => d.test? name = none ∧ e = .unknownSuite name
  | .test name => d.test? name = none ∧ e = .unknownTest name

/-- Whether a unit can be run. -/
def check (d : Definition) : RunUnit → Except SelectionError Unit
  | .group name => d.checkGroup name
  | .suite name _ => d.checkTest name (.unknownSuite name)
  | .test name => d.checkTest name (.unknownTest name)

theorem checkGroup_eq_error_iff : d.checkGroup name = .error e ↔ d.Fault [] name e := by
  rw [← visit_eq_error_iff]
  rcases d.visit_cases [] name with ⟨e', he⟩ | ⟨hok, -⟩
  · simp [checkGroup, he, Except.map]
  · simp [checkGroup, hok, Except.map]

theorem check_eq_ok_iff {u : RunUnit} : d.check u = .ok () ↔ d.Runnable u := by
  cases u with
  | group name => exact checkGroup_eq_ok_iff
  | suite name tests => exact checkTest_eq_ok_iff
  | test name => exact checkTest_eq_ok_iff

theorem check_eq_error_iff {u : RunUnit} : d.check u = .error e ↔ d.Blocks e u := by
  cases u with
  | group name => exact checkGroup_eq_error_iff
  | suite name tests => exact checkTest_eq_error_iff
  | test name => exact checkTest_eq_error_iff

/-- A selection is compiled by checking its units one after another. -/
theorem compile_eq (d : Definition) (s : Selection) :
    d.compile s = (forM s.units d.check >>= fun _ => .ok s.units) := by
  have hgroups : forM (s.groups.map RunUnit.group) d.check = forM s.groups d.checkGroup := by
    rw [List.forM_map]
    rfl
  rw [compile, Selection.units, Selection.alone, List.forM_append, hgroups, List.forM_eq_forM]
  cases forM s.groups d.checkGroup with
  | error e' => rfl
  | ok u =>
    cases s.suite.filter (·.name ≠ "") with
    | some c =>
      show (d.checkTest c.name (.unknownSuite c.name) >>= fun _ => _) =
        (forM [RunUnit.suite c.name c.tests] d.check >>= fun _ => _)
      rw [List.forM_cons]
      show _ = ((d.checkTest c.name (.unknownSuite c.name) >>= fun _ => _) >>= fun _ => _)
      cases d.checkTest c.name (.unknownSuite c.name) <;> rfl
    | none =>
      have htests : forM (s.tests.map RunUnit.test) d.check =
          forM s.tests fun name => d.checkTest name (.unknownTest name) := by
        rw [List.forM_map]
        rfl
      show _ = (forM (s.tests.map RunUnit.test) d.check >>= fun _ => _)
      rw [htests]
      rfl

/-- **The error of a selection** is that of its first unit that cannot be run. -/
theorem compile_eq_error_iff : d.compile s = .error e ↔
    ∃ before u after, s.units = before ++ u :: after ∧ (∀ v ∈ before, d.Runnable v) ∧
      d.Blocks e u := by
  have hforM : d.compile s = .error e ↔ forM s.units d.check = .error e := by
    rw [compile_eq]
    cases forM s.units d.check <;> simp [bind, Except.bind]
  rw [hforM, forM_eq_error_iff]
  simp only [check_eq_ok_iff, check_eq_error_iff]

end Definition

/-- The groups of a selection come before all its other units. -/
theorem Selection.group_mem_of_units {s : Selection} {before after : List RunUnit} {u : RunUnit}
    (h : s.units = before ++ u :: after) (hu : ∀ name, u ≠ .group name) :
    ∀ name ∈ s.groups, .group name ∈ before := by
  intro name hname
  have hgroup : RunUnit.group name ∈ s.groups.map .group := List.mem_map_of_mem hname
  rw [units, List.append_eq_append_iff] at h
  rcases h with ⟨rest, rfl, -⟩ | ⟨rest, hgroups, hrest⟩
  · exact List.mem_append_left _ hgroup
  · cases rest with
    | nil =>
      rw [List.append_nil] at hgroups
      exact hgroups ▸ hgroup
    | cons v rest =>
      -- the unit would be one of the groups
      cases hrest
      have hmem : u ∈ s.groups.map RunUnit.group := by simp [hgroups]
      obtain ⟨name', -, hname'⟩ := List.mem_map.1 hmem
      exact absurd hname'.symm (hu name')

/-- What stands by itself in a selection is its suite, or else one of its tests. -/
theorem Selection.alone_cases {s : Selection} {u : RunUnit} (h : u ∈ s.alone) :
    (∃ c, s.suite = some c ∧ c.name ≠ "" ∧ u = .suite c.name c.tests) ∨
      (∀ c, s.suite = some c → c.name = "") ∧ ∃ test ∈ s.tests, u = .test test := by
  by_cases hnone : ∀ c, s.suite = some c → c.name = ""
  · rw [alone_of_unnamed hnone] at h
    obtain ⟨test, htest, rfl⟩ := List.mem_map.1 h
    exact .inr ⟨hnone, test, htest, rfl⟩
  · obtain ⟨c, hs, hc⟩ : ∃ c, s.suite = some c ∧ c.name ≠ "" := by simpa using hnone
    rw [alone_of_named hs hc] at h
    exact .inl ⟨c, hs, hc, List.mem_singleton.1 h⟩

/-- **The error of a selection is true.** It is that of the first unit that cannot be run, and what
it names is there, or missing, as it says: a cycle goes from a selected group through groups that
each list the next one, and the groups and tests that are missing are asked for by the selection or
by a group that it leads to. -/
theorem Definition.truthful_of_compile_eq_error {d : Definition} {s : Selection}
    {e : SelectionError}
    (h : d.compile s = .error e) :
    (∃ before u after, s.units = before ++ u :: after ∧ (∀ v ∈ before, d.Runnable v) ∧
      d.Blocks e u) ∧
      d.Truthful s e := by
  obtain ⟨before, u, after, hunits, hbefore, hblocks⟩ := compile_eq_error_iff.1 h
  refine ⟨⟨before, u, after, hunits, hbefore, hblocks⟩, ?_⟩
  have hmem : u ∈ s.units := by simp [hunits]
  rcases List.mem_append.1 hmem with hgroup | halone
  · obtain ⟨name, hname, rfl⟩ := List.mem_map.1 hgroup
    exact hblocks.truthful (.start hname)
  · have hgroups : (∀ name, u ≠ .group name) → ∀ g ∈ s.groups, d.checkGroup g = .ok () :=
      fun hu g hg => checkGroup_eq_ok_iff.2
        (hbefore _ (Selection.group_mem_of_units hunits hu g hg))
    rcases Selection.alone_cases halone with ⟨c, hs, hc, rfl⟩ | ⟨hnone, test, htest, rfl⟩
    · obtain ⟨hundefined, rfl⟩ := hblocks
      exact ⟨⟨c, hs, rfl⟩, hc, hundefined, hgroups nofun⟩
    · obtain ⟨hundefined, rfl⟩ := hblocks
      exact ⟨htest, hnone, hundefined, hgroups nofun⟩

/-- Groups that lead into a cycle, and one that does not. -/
def winding : Definition where
  name := "winding"
  tests := .ofList [("a", { path := "a" })]
  groups := .ofList [("fine", { tests := [⟨"a", .empty⟩] }),
    ("outer", { groups := [⟨"fine", .empty⟩, ⟨"inner", .empty⟩] }),
    ("inner", { groups := [⟨"innermost", .empty⟩] }),
    ("innermost", { groups := [⟨"inner", .empty⟩] })]

theorem winding_wellNested {path : List String} (h : "fine" ∉ path) :
    winding.WellNested path "fine" :=
  .intro h rfl (by decide) fun r hr => by cases hr

/-- What the walk through the groups finds. -/
theorem winding_fault :
    winding.Fault [] "outer" (.groupCycle ["outer", "inner", "innermost", "inner"]) := by
  have houter : ([⟨"fine", .empty⟩, ⟨"inner", .empty⟩] : List Ref) =
      [⟨"fine", .empty⟩] ++ [⟨"inner", .empty⟩] := rfl
  have halone : ∀ name, ([⟨name, .empty⟩] : List Ref) = [] ++ [⟨name, .empty⟩] := fun _ => rfl
  refine .inner (by decide) rfl (by decide) houter ?_ ?_
  · exact List.forall_mem_singleton.2 (winding_wellNested (by decide))
  refine .inner (by decide) rfl (by decide) (halone "innermost") nofun ?_
  refine .inner (by decide) rfl (by decide) (halone "inner") nofun ?_
  exact .cycle (by decide)

theorem truthful_of_winding :
    let s : Selection := { groups := ["fine", "outer"], tests := ["b"] }
    let e : SelectionError := .groupCycle ["outer", "inner", "innermost", "inner"]
    winding.compile s = .error e ∧ (∃ before u after, s.units = before ++ u :: after ∧
      (∀ v ∈ before, winding.Runnable v) ∧ winding.Blocks e u) ∧ winding.Truthful s e := by
  intro s e
  have herror : winding.compile s = .error e := by
    refine Definition.compile_eq_error_iff.2 ⟨[.group "fine"], .group "outer", [.test "b"], rfl, ?_,
      winding_fault⟩
    exact List.forall_mem_singleton.2 (winding_wellNested (by decide))
  exact ⟨herror, Definition.truthful_of_compile_eq_error herror⟩

end TestOrchestrator
