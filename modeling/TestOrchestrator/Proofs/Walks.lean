import Mathlib.Data.List.Nodup
import Mathlib.Data.List.Perm.Subperm
import TestOrchestrator.Compilation
/-!
# The calls of a walk through groups

The walk through a group calls itself on the groups below, and all these calls share one path.

* `Definition.walk d depth name` is the walk with one path that all its calls change in place, and
  with the calls noted. `exists_retraces_visit`: it comes to what `Definition.visit` comes to.
* `Definition.Clear d depth path` says that the groups on a path are distinct and defined, and that
  there is one for each call around the one at hand.
* `Definition.walk_clear`: the walk ends, all its calls have such paths, and each that finds no
  fault leaves the path as it was.
-/

namespace TestOrchestrator

/-- A call of a walk. -/
structure WalkCall where
  /-- How many calls have begun and not ended, this one among them. -/
  depth : Nat
  /-- The groups that the walk is inside, the outermost first. -/
  path : List String
  name : String
  deriving DecidableEq

/-- Where a walk stands: the groups that it is inside, and its calls so far. -/
structure Standing where
  path : List String := []
  calls : List WalkCall := []

/-- A part of a walk. It may stop with a fault, and it may not end. -/
abbrev Walking := ExceptT SelectionError (StateT Standing Option)

namespace Standing

/-- Notes a call. -/
def note (depth : Nat) (name : String) (s : Standing) : Standing :=
  { s with calls := s.calls ++ [⟨depth, s.path, name⟩] }

/-- Inside a group. -/
def enter (name : String) (s : Standing) : Standing := { s with path := s.path ++ [name] }

/-- Outside of the group that was entered last. -/
def leave (s : Standing) : Standing := { s with path := s.path.dropLast }

end Standing

namespace Definition

/-- Walks through a group and the groups below it, with one path for all calls. -/
def walk (d : Definition) (depth : Nat) (name : String) : Walking Unit := do
  modify (Standing.note depth name)
  let path := (← get).path
  if name ∈ path then throw (.groupCycle (path ++ [name]))
  else
    match d.group? name with
    | none => throw (.unknownGroup name)
    | some g =>
      d.checkTests name g.tests
      modify (Standing.enter name)
      g.groups.forM fun r => d |>.walk (depth + 1) r.name
      modify Standing.leave
partial_fixpoint

variable {d : Definition} {depth : Nat} {path : List String} {name : String} {s : Standing}

/-! ## One call -/

theorem walk_of_mem (h : name ∈ s.path) :
    (d.walk depth name).run.run s =
      some (.error (.groupCycle (s.path ++ [name])), s.note depth name) := by
  rw [walk]
  show (if name ∈ s.path then throw _ else _ : Walking Unit).run.run (s.note depth name) = _
  rw [if_pos h]
  rfl

theorem walk_of_not_mem (h : name ∉ s.path) :
    (d.walk depth name).run.run s =
      match d.group? name with
      | none => some (.error (.unknownGroup name), s.note depth name)
      | some g =>
        match d.checkTests name g.tests with
        | .error e => some (.error e, s.note depth name)
        | .ok () =>
          ((forM g.groups fun r => d.walk (depth + 1) r.name).run.run
            ((s.note depth name).enter name)).map fun
            | (.error e, s') => (.error e, s')
            | (.ok (), s') => (.ok (), s'.leave) := by
  rw [walk]
  show (if name ∈ s.path then throw _ else _ : Walking Unit).run.run (s.note depth name) = _
  rw [if_neg h]
  cases d.group? name with
  | none => rfl
  | some g =>
    dsimp only
    generalize d.checkTests name g.tests = checked
    cases checked with
    | error e => rfl
    | ok u =>
      show ((forM g.groups fun r => d.walk (depth + 1) r.name).run.run _).bind _ = _
      rw [Option.map_eq_bind]
      congr 1
      funext ⟨answer, s'⟩
      cases answer <;> rfl

/-! ## The calls of a walk -/

/-- A path that a call at some depth may have: distinct groups, all defined, one for each call
around it. -/
structure Clear (d : Definition) (depth : Nat) (path : List String) : Prop where
  distinct : path.Nodup
  defined : ∀ g ∈ path, (d.group? g).isSome
  depth_eq : depth = path.length + 1

namespace Clear

theorem start : d.Clear 1 [] := ⟨.nil, nofun, rfl⟩

theorem enter {g : GroupSpec} (h : d.Clear depth path) (fresh : name ∉ path)
    (defined : d.group? name = some g) :
    d.Clear (depth + 1) (path ++ [name]) where
  distinct := by
    rw [← List.concat_eq_append]
    exact h.distinct.concat fresh
  defined := List.forall_mem_append.2 ⟨h.defined, List.forall_mem_singleton.2 (by simp [defined])⟩
  depth_eq := by rw [List.length_append, List.length_singleton, h.depth_eq]

/-- Distinct groups that are defined are no more than there are. -/
theorem length_le (h : d.Clear depth path) : path.length ≤ d.groups.size := by
  have hnames : path ⊆ d.groups.names := by
    intro g hg
    obtain ⟨spec, hspec⟩ := Option.isSome_iff_exists.1 (h.defined g hg)
    exact Table.mem_names_of_get? hspec
  have hlength : path.length ≤ d.groups.names.length := (h.distinct.subperm hnames).length_le
  rwa [Table.names, List.length_map] at hlength

end Clear

/-- A walk from a path comes to the same with the path given to it and with the path at hand, which
it leaves as it was if it finds no fault. These are its calls. -/
def Retraces (path : List String) (given : ExceptT SelectionError Option (List String))
    (inPlace : Walking Unit)
    (calls : List WalkCall) : Prop :=
  ∃ answer rest, given.run = some (answer.map fun () => path) ∧
    (∀ log, inPlace.run.run ⟨path, log⟩ = some (answer, ⟨rest, log ++ calls⟩)) ∧
      (answer = .ok () → rest = path)

/-- Walks one after another: each starts where the one before it left the path. -/
theorem exists_retraces_foldlM {P : WalkCall → Prop} {rs : List Ref}
    (given : List String → Ref → ExceptT SelectionError Option (List String))
    (inPlace : Ref → Walking Unit)
    (h : ∀ r ∈ rs, ∃ calls, Retraces path (given path r) (inPlace r) calls ∧ ∀ c ∈ calls, P c) :
    ∃ calls, Retraces path (rs.foldlM given path) (forM rs inPlace) calls ∧ ∀ c ∈ calls, P c := by
  induction rs with
  | nil =>
    exact ⟨[], ⟨.ok (), path, rfl, fun log => by rw [List.append_nil]; rfl, fun _ => rfl⟩, nofun⟩
  | cons r rs ih =>
    obtain ⟨hr, hrs⟩ := List.forall_mem_cons.1 h
    obtain ⟨calls, ⟨answer, rest, hgiven, hplace, hpath⟩, hcalls⟩ := hr
    rw [List.foldlM_cons, List.forM_cons]
    cases answer with
    | error e =>
      refine ⟨calls, ⟨.error e, rest, ?_, fun log => ?_, nofun⟩, hcalls⟩
      · rw [ExceptT.run_bind, hgiven]
        rfl
      · show ((inPlace r).run.run ⟨path, log⟩).bind _ = _
        rw [hplace]
        rfl
    | ok u =>
      obtain ⟨calls', ⟨answer, rest', hgiven', hplace', hpath'⟩, hcalls'⟩ := ih hrs
      cases hpath rfl
      refine ⟨calls ++ calls', ⟨answer, rest', ?_, fun log => ?_, hpath'⟩,
        List.forall_mem_append.2 ⟨hcalls, hcalls'⟩⟩
      · rw [ExceptT.run_bind, hgiven]
        exact hgiven'
      · show ((inPlace r).run.run ⟨path, log⟩).bind _ = _
        rw [hplace, ← List.append_assoc]
        exact hplace' (log ++ calls)

/-- **The walk with one path comes to what the walk comes to**, and the calls below a call with a
clear path have clear paths. -/
theorem exists_retraces_visit (d : Definition) (depth : Nat) (path : List String) (name : String) :
    ∃ below, Retraces path (d.visit path name) (d.walk depth name) (⟨depth, path, name⟩ :: below) ∧
      ∀ c ∈ below, d.Clear depth path → d.Clear c.depth c.path := by
  induction hn : d.room path using Nat.strongRecOn generalizing depth path name with
  | ind n ih =>
  subst hn
  by_cases hmem : name ∈ path
  · exact ⟨[], ⟨.error _, path, visit_of_mem hmem, fun log => walk_of_mem hmem, nofun⟩, nofun⟩
  have hwalk := fun log => @walk_of_not_mem d depth name ⟨path, log⟩ hmem
  cases hg : d.group? name with
  | none =>
    simp only [hg] at hwalk
    exact ⟨[], ⟨.error _, path, visit_of_undefined hmem hg, hwalk, nofun⟩, nofun⟩
  | some g =>
    have hvisit := visit_of_defined hmem hg
    simp only [hg] at hwalk
    cases hts : d.checkTests name g.tests with
    | error e =>
      simp only [hts] at hvisit hwalk
      exact ⟨[], ⟨.error e, path, hvisit, hwalk, nofun⟩, nofun⟩
    | ok u =>
      -- the group is on the path of the walks below, which leaves less room for them
      have hgroups : ∀ r ∈ g.groups, ∃ calls,
          Retraces (path ++ [name]) (d.visit (path ++ [name]) r.name)
            (d.walk (depth + 1) r.name) calls ∧
            ∀ c ∈ calls, d.Clear depth path → d.Clear c.depth c.path := by
        intro r _
        obtain ⟨below, hbelow, hclear⟩ := ih _ (room_enter hmem hg) (depth + 1) _ r.name rfl
        have hinside : d.Clear depth path → d.Clear (depth + 1) (path ++ [name]) :=
          fun h => h.enter hmem hg
        exact ⟨_, hbelow, List.forall_mem_cons.2 ⟨hinside, fun c hc h => hclear c hc (hinside h)⟩⟩
      obtain ⟨below, ⟨answer, rest, hgiven, hplace, hpath⟩, hclear⟩ := exists_retraces_foldlM
        (fun path r => d.visit path r.name) (fun r => d.walk (depth + 1) r.name) hgroups
      have hbelow : ∀ log, (forM g.groups fun r => d.walk (depth + 1) r.name).run.run
          ((Standing.note depth name ⟨path, log⟩).enter name) =
            some (answer, ⟨rest, log ++ ⟨depth, path, name⟩ :: below⟩) := by
        intro log
        have hlog := hplace (log ++ [⟨depth, path, name⟩])
        rwa [List.append_assoc] at hlog
      simp only [hts, hgiven] at hvisit
      simp only [hts, hbelow] at hwalk
      refine ⟨below, ?_, hclear⟩
      cases answer with
      | error e => exact ⟨.error e, rest, hvisit, hwalk, nofun⟩
      | ok u =>
        cases hpath rfl
        have hleave : (path ++ [name]).dropLast = path := List.dropLast_concat
        refine ⟨.ok (), path, hvisit.trans ?_, fun log => (hwalk log).trans ?_, fun _ => rfl⟩
        · show some (Except.ok (path ++ [name]).dropLast) = some (.ok path)
          rw [hleave]
        · show some (Except.ok (), Standing.mk (path ++ [name]).dropLast _) =
            some (.ok (), Standing.mk path _)
          rw [hleave]

/-- **The calls of a walk.** The walk from no path ends. All calls below the first one have a path
of distinct groups that are defined. So none has more groups on its path than there are, and none is
deeper than that, and one more. A call that finds no fault leaves the path as it was, wherever the
walk began. -/
theorem walk_clear (d : Definition) (root : String) :
    (∃ answer rest below, (d.visit [] root).run = some (answer.map fun () => []) ∧
      d.checkGroup root = answer ∧
      (d.walk 1 root).run.run {} = some (answer, ⟨rest, ⟨1, [], root⟩ :: below⟩) ∧
      ∀ c ∈ below, c.path.Nodup ∧ (∀ g ∈ c.path, (d.group? g).isSome) ∧
        c.path.length ≤ d.groups.size ∧
        c.depth ≤ d.groups.size + 1) ∧
    (∀ path name path', (d.visit path name).run = some (.ok path') → path' = path) ∧
    ∀ depth name s s', (d.walk depth name).run.run s = some (.ok (), s') → s'.path = s.path := by
  refine ⟨?_, fun path name path' h => ?_, fun depth name s s' h => ?_⟩
  · obtain ⟨below, ⟨answer, rest, hgiven, hplace, -⟩, hbelow⟩ := d.exists_retraces_visit 1 [] root
    refine ⟨answer, rest, below, hgiven, ?_, hplace [], fun c hc => ?_⟩
    · simp only [checkGroup, hgiven, Option.get_some]
      cases answer <;> rfl
    · have hclear : d.Clear c.depth c.path := hbelow c hc .start
      exact ⟨hclear.distinct, hclear.defined, hclear.length_le,
        hclear.depth_eq ▸ Nat.succ_le_succ hclear.length_le⟩
  · obtain ⟨below, ⟨answer, rest, hgiven, -⟩, -⟩ := d.exists_retraces_visit 1 path name
    cases answer <;> cases hgiven.symm.trans h
    rfl
  · obtain ⟨below, ⟨answer, rest, -, hplace, hpath⟩, -⟩ := d.exists_retraces_visit depth s.path name
    cases (hplace s.calls).symm.trans h
    exact hpath rfl

end Definition

end TestOrchestrator
