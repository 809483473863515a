import Mathlib.Data.List.Forall2
import TestOrchestrator.CommandLine
import TestOrchestrator.Compilation
import TestOrchestrator.Proofs.Blanks
/-!
# The suite of a command line

One word of the command line says which suite to run and which tests of it.

* `Asks s c` is what such a word asks for: a suite whose name goes up to the first colon, and the
  tests between the commas behind it, without the blanks around them and without the empty ones.
  `asks_iff`: a word asks for one thing only.
* `Definition.compile_selection`: whether a suite without a name is dropped before a selection is
  compiled makes no difference.
* `toParameters?_suite`: a run has the suite of its command line if that has a name, and else the
  tests by themselves.
-/

namespace TestOrchestrator

/-- A suite without a name may be dropped early. -/
theorem Definition.compile_selection (d : Definition) (p : Parameters) :
    d.compile p.selection = d.compile ⟨p.groups, p.tests, p.suite⟩ := by
  have hfilter : p.namedSuite?.filter (·.name ≠ "") = p.suite.filter (·.name ≠ "") := by
    rw [Parameters.namedSuite?, Option.filter_filter]
    simp only [Bool.and_self]
  simp only [compile, Parameters.selection, hfilter]

namespace CommandLine

open Text

/-! ## What a word asks for -/

/-- `NAME` or `NAME:t1,t2` asks for a suite and the tests of it to run. -/
inductive Asks (s : String) : SuiteChoice → Prop
  | alone (colonless : ':' ∉ s.toList) : Asks s ⟨s, []⟩
  | listing {name : String} {pieces tests : List String}
      (cut : s = name ++ ":" ++ joined "," pieces)
      (colonless : ':' ∉ name.toList) (some : pieces ≠ [])
      (commaless : ∀ p ∈ pieces, ',' ∉ p.toList)
      (trimmed : List.Forall₂ (fun p t => Trims p.toList t.toList) pieces tests) :
      Asks s ⟨name, tests.filter (· ≠ "")⟩

variable {s name : String} {pieces tests : List String} {c : SuiteChoice}

theorem toList_listing : (name ++ ":" ++ joined "," pieces).toList =
    name.toList ++ ':' :: join [','] (pieces.map String.toList) := by
  rw [String.toList_append, String.toList_append, toList_joined, List.append_assoc]
  rfl

theorem filter_toList (ts : List String) :
    ((ts.map String.toList).filter (· ≠ [])).map String.ofList = ts.filter (· ≠ "") := by
  have hempty : ((fun cs : List Char => decide (cs ≠ [])) ∘ String.toList) = fun t =>
      decide (t ≠ "") := by
    funext t
    simp
  rw [List.filter_map, List.map_map, hempty]
  simp

theorem Asks.suiteChoice_eq (h : Asks s c) : suiteChoice s = c := by
  cases h with
  | alone colonless => rw [suiteChoice, cut?_eq_none_iff.2 colonless]
  | @listing name pieces tests cut colonless some commaless trimmed =>
    have hsplit : splitOn ',' (join [','] (pieces.map String.toList)) = pieces.map String.toList :=
      splitOn_join (by simpa using some) (List.forall_mem_map.2 commaless)
    have htrim : (pieces.map String.toList).map trim = tests.map String.toList := by
      rw [List.map_map, ← List.forall₂_eq_eq_eq, List.forall₂_map_left_iff,
        List.forall₂_map_right_iff]
      exact trimmed.imp fun p t h => h.trim_eq
    rw [suiteChoice, cut, toList_listing, cut?_append_cons colonless]
    dsimp only
    rw [String.ofList_toList, hsplit, htrim, filter_toList]

theorem asks_suiteChoice (s : String) : Asks s (suiteChoice s) := by
  cases hcut : cut? ':' s.toList with
  | none =>
    rw [suiteChoice, hcut]
    exact .alone (cut?_eq_none_iff.1 hcut)
  | some p =>
    obtain ⟨name, rest⟩ := p
    obtain ⟨hs, hname⟩ := cut?_eq_some_iff.1 hcut
    let pieces := (splitOn ',' rest).map String.ofList
    have hpieces : pieces.map String.toList = splitOn ',' rest := by simp [pieces]
    have hlisting : s = String.ofList name ++ ":" ++ joined "," pieces := by
      refine String.toList_injective ?_
      rw [toList_listing, hpieces, join_splitOn, String.toList_ofList, hs]
    have hcommaless : ∀ p ∈ pieces, ',' ∉ p.toList := by
      refine List.forall_mem_map.2 fun p hp => ?_
      rw [String.toList_ofList]
      exact not_mem_of_mem_splitOn hp
    have htrimmed : List.Forall₂ (fun p t => Trims p.toList t.toList) pieces
        (pieces.map trimmed) := by
      rw [List.forall₂_map_right_iff, List.forall₂_same]
      intro p _
      rw [trimmed, String.toList_ofList]
      exact trims_trim p.toList
    have htests : (pieces.map trimmed).map String.toList = (splitOn ',' rest).map trim := by
      simp [pieces, trimmed, Function.comp_def]
    have hname' : ':' ∉ (String.ofList name).toList := String.toList_ofList.symm ▸ hname
    have hchoice : suiteChoice s = ⟨String.ofList name, (pieces.map trimmed).filter (· ≠ "")⟩ := by
      rw [suiteChoice, hcut, ← filter_toList, htests]
    rw [hchoice]
    exact .listing hlisting hname' (by simpa [pieces] using splitOn_ne_nil ',' rest) hcommaless
      htrimmed

/-- **A word asks for one thing only.** -/
theorem asks_iff : Asks s c ↔ c = suiteChoice s :=
  ⟨fun h => h.suiteChoice_eq.symm, fun h => h ▸ asks_suiteChoice s⟩

/-- Tests that are written without blanks, commas in between, are asked for as they are. -/
theorem asks_listing (hname : ':' ∉ name.toList)
    (htests : ∀ t ∈ tests, t ≠ "" ∧ ',' ∉ t.toList ∧ Trims t.toList t.toList) :
    Asks (name ++ ":" ++ joined "," tests) ⟨name, tests⟩ := by
  rcases tests.eq_nil_or_concat with rfl | hne
  · -- what stands between no commas is one text, and it is empty
    have hempty : Trims "".toList "".toList := trim_eq_iff.1 rfl
    exact @Asks.listing _ name [""] [""] rfl hname (List.cons_ne_nil _ _) (by simp)
      (.cons hempty .nil)
  · have hfull : tests.filter (· ≠ "") = tests :=
      List.filter_eq_self.2 fun t ht => decide_eq_true (htests t ht).1
    have hlisting : Asks (name ++ ":" ++ joined "," tests) ⟨name, tests.filter (· ≠ "")⟩ := by
      refine .listing rfl hname ?_ (fun t ht => (htests t ht).2.1) ?_
      · obtain ⟨init, last, rfl⟩ := hne
        simp
      · exact List.forall₂_same.2 fun t ht => (htests t ht).2.2
    rwa [hfull] at hlisting

/-! ## From words to units -/

theorem eq_of_toParameters? {a : Arguments} {env : Environment} {p : Parameters}
    (h : a.toParameters? env = .ok p) :
    p.groups = a.groups ∧ p.tests = a.tests ∧ p.suite = a.suite.map suiteChoice := by
  rw [Arguments.toParameters?] at h
  cases hlevel : a.level? env with
  | error why =>
    rw [hlevel] at h
    cases h
  | ok level =>
    rw [hlevel] at h
    cases h
    exact ⟨rfl, rfl, rfl⟩

/-- What stands behind the groups of a compiled selection with a suite. -/
theorem units_of_suite {d : Definition} {groups tests : List String} {us : List RunUnit}
    (h : d.compile ⟨groups, tests, some c⟩ = .ok us) :
    (us = groups.map .group ++ [.suite c.name c.tests] ↔ c.name ≠ "") ∧
      (us = groups.map .group ++ tests.map .test ↔ c.name = "") := by
  obtain ⟨-, hus⟩ := Definition.compile_eq_ok_iff.1 h
  -- no suite is a test
  have hdiffer : [RunUnit.suite c.name c.tests] ≠ tests.map .test := by
    intro heq
    obtain ⟨t, -, ht⟩ :=
      List.mem_map.1 (heq ▸ List.mem_singleton_self (RunUnit.suite c.name c.tests))
    cases ht
  rw [Selection.units] at hus
  by_cases hc : c.name = ""
  · have hnone : ∀ c', some c = some c' → c'.name = "" := fun c' hc' => Option.some.inj hc' ▸ hc
    rw [Selection.alone_of_unnamed hnone] at hus
    simp [hus, hc]
  · rw [Selection.alone_of_named rfl hc] at hus
    simp [hus, hc, hdiffer]

/-- **The suite of a command line.** The word for it asks for one suite. With a name, that suite is
what the run has behind its groups; without one, the run has the tests by themselves, and it makes
no difference whether the selection still lists the suite. A name without a colon and tests between
commas are asked for as they are written. -/
theorem toParameters?_suite {a : Arguments} {env : Environment} {p : Parameters}
    (hp : a.toParameters? env = .ok p)
    (hs : a.suite = some s) (d : Definition) :
    (∃! c, Asks s c) ∧
    (∀ c, Asks s c →
      p.namedSuite? = (if c.name = "" then none else some c) ∧
      d.compile p.selection = d.compile ⟨a.groups, a.tests, some c⟩ ∧
      ∀ us, d.compile p.selection = .ok us →
        (us = a.groups.map .group ++ [.suite c.name c.tests] ↔ c.name ≠ "") ∧
        (us = a.groups.map .group ++ a.tests.map .test ↔ c.name = "")) ∧
    ∀ name tests, name ≠ "" → ':' ∉ name.toList →
      (∀ t ∈ tests, t ≠ "" ∧ ',' ∉ t.toList ∧ Trims t.toList t.toList) →
        s = name ++ ":" ++ joined "," tests →
      p.namedSuite? = some ⟨name, tests⟩ ∧
      ∀ us, d.compile p.selection = .ok us → us = a.groups.map .group ++ [.suite name tests] := by
  obtain ⟨hgroups, htests, hsuite⟩ := eq_of_toParameters? hp
  have hnamed : ∀ c, Asks s c → p.namedSuite? = if c.name = "" then none else some c := by
    intro c hc
    rw [Parameters.namedSuite?, hsuite, hs, Option.map_some, ← asks_iff.1 hc]
    by_cases hname : c.name = "" <;> simp [Option.filter, hname]
  have hcompile : ∀ c, Asks s c →
      d.compile p.selection = d.compile ⟨a.groups, a.tests, some c⟩ := by
    intro c hc
    rw [d.compile_selection, hgroups, htests, hsuite, hs, Option.map_some, ← asks_iff.1 hc]
  have hunits : ∀ c, Asks s c → ∀ us, d.compile p.selection = .ok us →
      (us = a.groups.map .group ++ [.suite c.name c.tests] ↔ c.name ≠ "") ∧
        (us = a.groups.map .group ++ a.tests.map .test ↔ c.name = "") :=
    fun c hc us hus => units_of_suite (hcompile c hc ▸ hus)
  refine ⟨⟨suiteChoice s, asks_suiteChoice s, fun c hc => asks_iff.1 hc⟩,
    fun c hc => ⟨hnamed c hc, hcompile c hc, hunits c hc⟩, ?_⟩
  rintro name tests hname hcolon hlist rfl
  have hc : Asks _ ⟨name, tests⟩ := asks_listing hcolon hlist
  exact ⟨(hnamed _ hc).trans (if_neg hname), fun us hus => (hunits _ hc us hus).1.2 hname⟩

/-- A test that is also a suite, another test, and a group of this one. -/
def service : Definition where
  name := "service"
  tests := .ofList [("api", { path := "api" }), ("ping", { path := "ping" })]
  groups := .ofList [("smoke", { tests := [⟨"ping", .empty⟩] })]

theorem toParameters?_suite_of_listing :
    let words := ["--suite", "api:login,log out", "-t", "ping", "-g", "smoke"]
    ∃ a p, parse words = .ok a ∧ a.toParameters? {} = .ok p ∧ a.suite = some "api:login,log out" ∧
      p.namedSuite? = some ⟨"api", ["login", "log out"]⟩ ∧
      service.compile p.selection = .ok [.group "smoke", .suite "api" ["login", "log out"]] := by
  intro words
  let a : Arguments := { groups := ["smoke"], tests := ["ping"], suite := some "api:login,log out" }
  let p : Parameters :=
    { groups := ["smoke"], tests := ["ping"], suite := some ⟨"api", ["login", "log out"]⟩ }
  have hparse : parse words = .ok a := rfl
  have hp : a.toParameters? {} = .ok p := rfl
  have htests : ∀ t ∈ ["login", "log out"], t ≠ "" ∧ ',' ∉ t.toList ∧ Trims t.toList t.toList :=
    List.forall_mem_cons.2 ⟨⟨by decide, by decide, trim_eq_iff.1 (by decide)⟩,
      List.forall_mem_singleton.2 ⟨by decide, by decide, trim_eq_iff.1 (by decide)⟩⟩
  obtain ⟨hnamed, hunits⟩ := (toParameters?_suite hp rfl service).2.2 "api" ["login", "log out"]
    (by decide)
    (by decide) htests rfl
  have hsmoke : service.WellNested [] "smoke" := .intro (by decide) rfl (by decide) nofun
  obtain ⟨us, hus⟩ : ∃ us, service.compile p.selection = .ok us := by
    refine ⟨_, Definition.compile_eq_ok_iff.2 ⟨?_, rfl⟩⟩
    exact List.forall_mem_cons.2 ⟨hsmoke, List.forall_mem_singleton.2 rfl⟩
  exact ⟨a, p, hparse, hp, rfl, hnamed, hus.trans (congrArg Except.ok (hunits us hus))⟩

end CommandLine

end TestOrchestrator
