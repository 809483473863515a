import TestOrchestrator.Selection
/-!
# From selections to units

* `Definition.visit d path name` walks through a group and all groups below it, depth first. It
  keeps the groups that it is inside on a path and stops at the first fault. Nothing in it bounds
  the walk; `visit_cases` says that it ends, with an error or with the path that it was given.
* `Definition.WellNested d path name` is what the walk accepts.
* `Definition.compile d s` is the units of a selection, in order, unless something that they need is
  missing or a group is inside itself. The error is that of the first unit that has one.
-/

namespace TestOrchestrator

theorem bind_eq_ok_iff {ε α : Type} {x : Except ε Unit} {f : Unit → Except ε α} {a : α} :
    (x >>= f) = .ok a ↔ x = .ok () ∧ f () = .ok a := by
  cases x <;> simp [bind, Except.bind]

theorem forM_eq_ok_iff {ε α : Type} {f : α → Except ε Unit} {xs : List α} :
    forM xs f = .ok () ↔ ∀ x ∈ xs, f x = .ok () := by
  induction xs with
  | nil => simp [pure, Except.pure]
  | cons x xs ih => rw [List.forM_cons, bind_eq_ok_iff, ih, List.forall_mem_cons]

theorem Table.mem_names_of_get? {α : Type} {t : Table α} {name : String} {a : α}
    (h : t.get? name = some a) : name ∈ t.names := by
  rw [Table.get?, List.lookup_eq_some_iff] at h
  obtain ⟨l₁, l₂, h, -⟩ := h
  simp [Table.names, h]

namespace Definition

/-! ## Walks through groups -/

/-- A name that must be that of a test. -/
def checkTest (d : Definition) (name : String) (e : SelectionError) : Except SelectionError Unit :=
  if (d.test? name).isSome then .ok () else .error e

/-- The tests that a group lists must be defined. -/
def checkTests (d : Definition) (group : String) (tests : List Ref) : Except SelectionError Unit :=
  tests.forM fun t => d.checkTest t.name (.unknownGroupTest group t.name)

/-- Walks through a group and the groups below it, from inside the groups on the path. The groups of
a group are walked through one after another, each from the path that the one before it left. -/
def visit (d : Definition) (path : List String) (name : String) :
    ExceptT SelectionError Option (List String) := do
  if name ∈ path then throw (.groupCycle (path ++ [name]))
  else
    match d.group? name with
    | none => throw (.unknownGroup name)
    | some g =>
      d.checkTests name g.tests
      let path ← g.groups.foldlM (fun path r => d |>.visit path r.name) (path ++ [name])
      return path.dropLast
partial_fixpoint

variable {d : Definition} {path : List String} {name : String}

theorem checkTest_eq_ok_iff {e : SelectionError} :
    d.checkTest name e = .ok () ↔ (d.test? name).isSome := by
  unfold checkTest
  split <;> simp_all

theorem checkTests_eq_ok_iff {tests : List Ref} :
    d.checkTests name tests = .ok () ↔ ∀ t ∈ tests, (d.test? t.name).isSome := by
  simp only [checkTests, List.forM_eq_forM, forM_eq_ok_iff, checkTest_eq_ok_iff]

/-- A group that can be entered from inside the groups on a path: it is not one of them, it and its
tests are defined, and its groups can be entered from inside it. -/
inductive WellNested (d : Definition) : List String → String → Prop
  | intro {path : List String} {name : String} {g : GroupSpec} (fresh : name ∉ path)
      (defined : d.group? name = some g) (tests : ∀ t ∈ g.tests, (d.test? t.name).isSome)
      (groups : ∀ r ∈ g.groups, WellNested d (path ++ [name]) r.name) : WellNested d path name

/-! ## The walk ends -/

/-- How many groups are not on a path. -/
def room (d : Definition) (path : List String) : Nat :=
  (d.groups.names.filter (· ∉ path)).length

theorem room_enter {g : GroupSpec} (fresh : name ∉ path) (defined : d.group? name = some g) :
    d.room (path ++ [name]) < d.room path := by
  have hmem : name ∈ d.groups.names := Table.mem_names_of_get? defined
  have heq : d.groups.names.filter (· ∉ path ++ [name]) =
      (d.groups.names.filter (· ∉ path)).filter (· ≠ name) := by
    rw [List.filter_filter]
    congr 1
    funext n
    by_cases hn : n = name <;> simp [hn]
  rw [room, room, heq]
  exact List.length_filter_lt_length_iff_exists.2 ⟨name, by simp [hmem, fresh], by simp⟩

theorem room_nil : d.room [] = d.groups.size := by
  have heq : d.groups.names.filter (· ∉ []) = d.groups.names :=
    List.filter_eq_self.2 fun n _ => by simp
  rw [room, heq, Table.names, List.length_map, Table.size]

/-- What a walk comes to: a fault, or the path that it began with. -/
def Ends (d : Definition) (path : List String) (name : String) : Prop :=
  (∃ e, (d.visit path name).run = some (.error e)) ∨
    ((d.visit path name).run = some (.ok path) ∧ d.WellNested path name)

theorem foldlM_visit_cases {rs : List Ref} (h : ∀ r ∈ rs, d.Ends path r.name) :
    (∃ e, (rs.foldlM (fun path r => d.visit path r.name) path).run = some (.error e)) ∨
      ((rs.foldlM (fun path r => d.visit path r.name) path).run = some (.ok path) ∧
        ∀ r ∈ rs, d.WellNested path r.name) := by
  induction rs with
  | nil => exact .inr ⟨rfl, by simp⟩
  | cons r rs ih =>
    obtain ⟨hr, hrs⟩ := List.forall_mem_cons.1 h
    rw [List.foldlM_cons, ExceptT.run_bind]
    rcases hr with ⟨e, he⟩ | ⟨hok, hwell⟩
    · exact .inl ⟨e, by rw [he]; rfl⟩
    · rw [hok]
      rcases ih hrs with ⟨e, he⟩ | ⟨hok', hwell'⟩
      · exact .inl ⟨e, he⟩
      · exact .inr ⟨hok', List.forall_mem_cons.2 ⟨hwell, hwell'⟩⟩

theorem visit_of_mem (h : name ∈ path) :
    (d.visit path name).run = some (.error (.groupCycle (path ++ [name]))) := by
  rw [visit, if_pos h]
  rfl

theorem visit_of_undefined (fresh : name ∉ path) (undefined : d.group? name = none) :
    (d.visit path name).run = some (.error (.unknownGroup name)) := by
  rw [visit, if_neg fresh, undefined]
  rfl

theorem visit_of_defined {g : GroupSpec} (fresh : name ∉ path) (defined : d.group? name = some g) :
    (d.visit path name).run =
      match d.checkTests name g.tests with
      | .error e => some (.error e)
      | .ok () =>
        (g.groups.foldlM (fun path r => d.visit path r.name) (path ++ [name])).run.bind fun
          | .error e => some (.error e)
          | .ok path => some (.ok path.dropLast) := by
  rw [visit, if_neg fresh, defined]
  dsimp only
  generalize d.checkTests name g.tests = checked
  cases checked with
  | error e => rfl
  | ok u =>
    show (g.groups.foldlM (fun path r => d.visit path r.name) (path ++ [name])).run.bind _ = _
    congr 1
    funext x
    cases x <;> rfl

/-- **Every walk ends**, and one without a fault gives back its path. -/
theorem visit_cases (d : Definition) (path : List String) (name : String) : d.Ends path name := by
  induction hn : d.room path using Nat.strongRecOn generalizing path name with
  | ind n ih =>
  subst hn
  by_cases hmem : name ∈ path
  · exact .inl ⟨_, visit_of_mem hmem⟩
  cases hg : d.group? name with
  | none => exact .inl ⟨_, visit_of_undefined hmem hg⟩
  | some g =>
    have hvisit := visit_of_defined hmem hg
    cases hts : d.checkTests name g.tests with
    | error e => exact .inl ⟨e, by rw [hvisit, hts]⟩
    | ok u =>
      -- the group is on the path of the walks below, which leaves less room for them
      have hgroups : ∀ r ∈ g.groups, d.Ends (path ++ [name]) r.name :=
        fun r _ => ih _ (room_enter hmem hg) _ _ rfl
      rw [hts] at hvisit
      rcases foldlM_visit_cases hgroups with ⟨e, he⟩ | ⟨hok, hwell⟩
      · exact .inl ⟨e, by rw [hvisit, he]; rfl⟩
      · refine .inr ⟨?_, .intro hmem hg (checkTests_eq_ok_iff.1 hts) hwell⟩
        rw [hvisit, hok]
        simp

theorem visit_isSome (d : Definition) (path : List String) (name : String) :
    (d.visit path name).run.isSome := by
  rcases d.visit_cases path name with ⟨e, he⟩ | ⟨hok, -⟩
  · rw [he]
    rfl
  · rw [hok]
    rfl

theorem WellNested.visit (h : d.WellNested path name) :
    (d.visit path name).run = some (.ok path) := by
  induction h with
  | @intro path name g fresh defined tests groups ih =>
    have hfold : ∀ rs : List Ref, (∀ r ∈ rs, r ∈ g.groups) →
        (rs.foldlM (fun path r => d.visit path r.name) (path ++ [name])).run =
          some (.ok (path ++ [name])) := by
      intro rs hrs
      induction rs with
      | nil => rfl
      | cons r rs ihrs =>
        obtain ⟨hr, hrs⟩ := List.forall_mem_cons.1 hrs
        rw [List.foldlM_cons, ExceptT.run_bind, ih r hr]
        exact ihrs hrs
    rw [visit_of_defined fresh defined, checkTests_eq_ok_iff.2 tests, hfold _ fun _ h => h]
    simp

/-! ## Selections -/

/-- A group can be run if the walk from no path finds no fault. -/
def checkGroup (d : Definition) (name : String) : Except SelectionError Unit :=
  ((d.visit [] name).run.get (d.visit_isSome [] name)).map fun _ => ()

theorem checkGroup_eq_ok_iff : d.checkGroup name = .ok () ↔ d.WellNested [] name := by
  constructor
  · intro h
    rcases d.visit_cases [] name with ⟨e, he⟩ | ⟨-, hwell⟩
    · simp [checkGroup, he, Except.map] at h
    · exact hwell
  · intro h
    simp [checkGroup, h.visit, Except.map]

/-- The units of a selection. A suite with a name takes the place of the tests. -/
def compile (d : Definition) (s : Selection) : Except SelectionError (List RunUnit) := do
  s.groups.forM d.checkGroup
  let groups := s.groups.map RunUnit.group
  match s.suite.filter (·.name ≠ "") with
  | some suite =>
    d.checkTest suite.name (.unknownSuite suite.name)
    return groups ++ [.suite suite.name suite.tests]
  | none =>
    s.tests.forM fun name => d.checkTest name (.unknownTest name)
    return groups ++ s.tests.map RunUnit.test

/-- All that a unit needs is there. -/
def Runnable (d : Definition) : RunUnit → Prop
  | .group name => d.WellNested [] name
  | .suite name _ => (d.test? name).isSome
  | .test name => (d.test? name).isSome

end Definition

/-- What a selection stands for besides its groups: its suite, if that has a name, or else its
tests. -/
def Selection.alone (s : Selection) : List RunUnit :=
  match s.suite.filter (·.name ≠ "") with
  | some suite => [.suite suite.name suite.tests]
  | none => s.tests.map .test

theorem Selection.alone_of_named {s : Selection} {c : SuiteChoice} (hs : s.suite = some c)
    (hc : c.name ≠ "") : s.alone = [.suite c.name c.tests] := by
  rw [alone, hs, Option.filter_some_pos (by simpa using hc)]

theorem Selection.alone_of_unnamed {s : Selection} (h : ∀ c, s.suite = some c → c.name = "") :
    s.alone = s.tests.map .test := by
  have hnone : s.suite.filter (·.name ≠ "") = none := by
    rw [Option.filter_eq_none_iff]
    intro c hc
    simp [h c hc]
  rw [alone, hnone]

/-- The units that a selection stands for. -/
def Selection.units (s : Selection) : List RunUnit := s.groups.map .group ++ s.alone

/-- **A selection compiles** if all its units can be run, and to these. -/
theorem Definition.compile_eq_ok_iff {d : Definition} {s : Selection} {us : List RunUnit} :
    d.compile s = .ok us ↔ (∀ u ∈ s.units, d.Runnable u) ∧ us = s.units := by
  have hgroups : forM s.groups d.checkGroup = .ok () ↔
      ∀ u ∈ s.groups.map RunUnit.group, d.Runnable u := by
    simp [forM_eq_ok_iff, checkGroup_eq_ok_iff, Runnable]
  have htests : (forM s.tests fun name => d.checkTest name (.unknownTest name)) = .ok () ↔
      ∀ u ∈ s.tests.map RunUnit.test, d.Runnable u := by
    simp [forM_eq_ok_iff, checkTest_eq_ok_iff, Runnable]
  rw [compile, Selection.units, Selection.alone, List.forall_mem_append, List.forM_eq_forM,
    bind_eq_ok_iff, hgroups, and_assoc]
  refine and_congr_right fun _ => ?_
  cases s.suite.filter (·.name ≠ "") with
  | some suite =>
    simp only [bind_eq_ok_iff, checkTest_eq_ok_iff, List.forall_mem_singleton, Runnable]
    exact and_congr_right fun _ => by simp [pure, Except.pure, eq_comm]
  | none =>
    simp only [bind_eq_ok_iff, htests]
    exact and_congr_right fun _ => by simp [pure, Except.pure, eq_comm]

end TestOrchestrator
