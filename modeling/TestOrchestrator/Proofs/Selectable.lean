import Mathlib.Logic.Relation
import TestOrchestrator.Compilation
/-!
# Which selections compile

The walk through a group keeps a path and stops at the first fault. What it accepts can be said
without paths: in `Definition.Sound d name`, every group that `name` leads to is defined, has
defined tests and does not lead to itself.

* `wellNested_nil_iff`: the walk from no path accepts just the sound groups.
* `compile_eq_ok_iff_selectable`: a selection compiles just if all that it needs is there, and then
  to its units.
-/

namespace TestOrchestrator

open Relation

namespace Definition

/-- One group lists another. -/
def Nests (d : Definition) (outer inner : String) : Prop :=
  ∃ g, d.group? outer = some g ∧ ∃ r ∈ g.groups, r.name = inner

/-- What a group leads to is all there and without cycles. -/
structure Sound (d : Definition) (name : String) : Prop where
  defined : ∀ g, ReflTransGen d.Nests name g → (d.group? g).isSome
  tests : ∀ g spec, ReflTransGen d.Nests name g → d.group? g = some spec →
    ∀ t ∈ spec.tests, (d.test? t.name).isSome
  acyclic : ∀ g, ReflTransGen d.Nests name g → ¬TransGen d.Nests g g

variable {d : Definition} {path : List String} {name g h : String}

/-! ## What the walk accepts is sound -/

namespace WellNested

theorem fresh (w : d.WellNested path name) : name ∉ path := by
  cases w with
  | intro fresh _ _ _ => exact fresh

theorem of_nests (w : d.WellNested path g) (hn : d.Nests g h) : d.WellNested (path ++ [g]) h := by
  obtain ⟨spec, hspec, r, hr, rfl⟩ := hn
  cases w with
  | intro _ defined _ groups =>
    rw [defined] at hspec
    cases hspec
    exact groups r hr

theorem of_transGen (w : d.WellNested path g) (hg : TransGen d.Nests g h) :
    ∃ path', g ∈ path' ∧ d.WellNested path' h := by
  induction hg with
  | single hn => exact ⟨path ++ [g], by simp, w.of_nests hn⟩
  | tail _ hn ih =>
    obtain ⟨path', hmem, w'⟩ := ih
    exact ⟨path' ++ [_], by simp [hmem], w'.of_nests hn⟩

theorem of_reflTransGen (w : d.WellNested path g) (hg : ReflTransGen d.Nests g h) :
    ∃ path', d.WellNested path' h := by
  rcases reflTransGen_iff_eq_or_transGen.1 hg with rfl | hg
  · exact ⟨path, w⟩
  · obtain ⟨path', -, w'⟩ := w.of_transGen hg
    exact ⟨path', w'⟩

/-- A group that leads to itself would have to be on the path that the walk reaches it by. -/
theorem acyclic (w : d.WellNested path g) : ¬TransGen d.Nests g g := by
  intro hg
  obtain ⟨path', hmem, w'⟩ := w.of_transGen hg
  exact w'.fresh hmem

theorem sound (w : d.WellNested path name) : d.Sound name where
  defined g hg := by
    obtain ⟨path', w'⟩ := w.of_reflTransGen hg
    cases w' with
    | intro _ defined _ _ => simp [defined]
  tests g spec hg hspec := by
    obtain ⟨path', w'⟩ := w.of_reflTransGen hg
    cases w' with
    | intro _ defined tests _ =>
      rw [defined] at hspec
      cases hspec
      exact tests
  acyclic g hg := by
    obtain ⟨path', w'⟩ := w.of_reflTransGen hg
    exact w'.acyclic

end WellNested

/-! ## The walk accepts what is sound -/

namespace Sound

theorem of_nests (s : d.Sound g) (hn : d.Nests g h) : d.Sound h where
  defined i hi := s.defined i (.head hn hi)
  tests i spec hi := s.tests i spec (.head hn hi)
  acyclic i hi := s.acyclic i (.head hn hi)

/-- The path of a walk leads to the group that the walk is at. -/
theorem wellNested (s : d.Sound name) (hpath : ∀ g ∈ path, TransGen d.Nests g name) :
    d.WellNested path name := by
  induction hn : d.room path using Nat.strongRecOn generalizing path name with
  | ind n ih =>
  subst hn
  have fresh : name ∉ path := fun hmem => s.acyclic name .refl (hpath name hmem)
  obtain ⟨spec, hspec⟩ := Option.isSome_iff_exists.1 (s.defined name .refl)
  refine .intro fresh hspec (s.tests name spec .refl hspec) fun r hr => ?_
  have hnests : d.Nests name r.name := ⟨spec, hspec, r, hr, rfl⟩
  refine ih _ (room_enter fresh hspec) (s.of_nests hnests) (fun g hg => ?_) rfl
  rcases List.mem_append.1 hg with hg | hg
  · exact (hpath g hg).tail hnests
  · exact List.mem_singleton.1 hg ▸ .single hnests

end Sound

/-- **The walk from no path accepts just the sound groups.** -/
theorem wellNested_nil_iff : d.WellNested [] name ↔ d.Sound name :=
  ⟨fun w => w.sound, fun s => s.wellNested (by simp)⟩

/-! ## Selections -/

/-- A selection leads to the groups that it names and to the groups that these lead to. -/
def Leads (d : Definition) (s : Selection) (g : String) : Prop :=
  ∃ name ∈ s.groups, ReflTransGen d.Nests name g

/-- All that a selection needs is there. -/
structure Selectable (d : Definition) (s : Selection) : Prop where
  groups : ∀ g, d.Leads s g → (d.group? g).isSome
  members : ∀ g spec, d.Leads s g → d.group? g = some spec →
    ∀ t ∈ spec.tests, (d.test? t.name).isSome
  acyclic : ∀ g, d.Leads s g → ¬TransGen d.Nests g g
  suite : ∀ c, s.suite = some c → c.name ≠ "" → (d.test? c.name).isSome
  /-- The tests matter only where no suite takes their place. -/
  tests : (∀ c, s.suite = some c → c.name = "") → ∀ t ∈ s.tests, (d.test? t).isSome

theorem sound_groups_iff {s : Selection} :
    (∀ name ∈ s.groups, d.Sound name) ↔
      (∀ g, d.Leads s g → (d.group? g).isSome) ∧
        (∀ g spec, d.Leads s g → d.group? g = some spec → ∀ t ∈ spec.tests,
          (d.test? t.name).isSome) ∧
        ∀ g, d.Leads s g → ¬TransGen d.Nests g g := by
  constructor
  · intro h
    exact ⟨fun g ⟨name, hname, hg⟩ => (h name hname).defined g hg,
      fun g spec ⟨name, hname, hg⟩ => (h name hname).tests g spec hg,
      fun g ⟨name, hname, hg⟩ => (h name hname).acyclic g hg⟩
  · rintro ⟨hdefined, htests, hacyclic⟩ name hname
    exact ⟨fun g hg => hdefined g ⟨name, hname, hg⟩, fun g spec hg =>
      htests g spec ⟨name, hname, hg⟩,
      fun g hg => hacyclic g ⟨name, hname, hg⟩⟩

theorem runnable_alone_iff {s : Selection} :
    (∀ u ∈ s.alone, d.Runnable u) ↔
      (∀ c, s.suite = some c → c.name ≠ "" → (d.test? c.name).isSome) ∧
        ((∀ c, s.suite = some c → c.name = "") → ∀ t ∈ s.tests, (d.test? t).isSome) := by
  by_cases h : ∀ c, s.suite = some c → c.name = ""
  · rw [Selection.alone_of_unnamed h, List.forall_mem_map]
    exact ⟨fun htests => ⟨fun c hs hc => absurd (h c hs) hc, fun _ => htests⟩, fun ⟨_, htests⟩ =>
      htests h⟩
  · obtain ⟨c, hs, hc⟩ : ∃ c, s.suite = some c ∧ c.name ≠ "" := by simpa using h
    rw [Selection.alone_of_named hs hc, List.forall_mem_singleton]
    refine ⟨fun hsuite => ⟨fun c' hs' _ => ?_, fun h' => absurd h' h⟩, fun ⟨hsuite, _⟩ =>
      hsuite c hs hc⟩
    rw [hs] at hs'
    cases hs'
    exact hsuite

/-- **A selection compiles just if all that it needs is there**, and then to its groups in their
order and after them to its suite or else to its tests. -/
theorem compile_eq_ok_iff_selectable (d : Definition) (s : Selection) (us : List RunUnit) :
    d.compile s = .ok us ↔ d.Selectable s ∧ us = s.groups.map .group ++ s.alone := by
  have hgroups : (∀ u ∈ s.groups.map RunUnit.group, d.Runnable u) ↔
      ∀ name ∈ s.groups, d.Sound name := by
    simp [Runnable, wellNested_nil_iff]
  rw [compile_eq_ok_iff, Selection.units, List.forall_mem_append, hgroups, sound_groups_iff,
    runnable_alone_iff]
  constructor
  · rintro ⟨⟨⟨hdefined, hmembers, hacyclic⟩, hsuite, htests⟩, hus⟩
    exact ⟨⟨hdefined, hmembers, hacyclic, hsuite, htests⟩, hus⟩
  · rintro ⟨h, hus⟩
    exact ⟨⟨⟨h.groups, h.members, h.acyclic⟩, h.suite, h.tests⟩, hus⟩

end Definition

end TestOrchestrator
