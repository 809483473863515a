import TestOrchestrator.Proofs.Absorption
import TestOrchestrator.Proofs.Consistency
/-!
# Suites made of cases

A suite that is built from its cases counts each of them once, by its status.

* `Counts.ofCases cases` counts cases by their status. `Counts.passed_ofCases`: what is counted as
  skipped, failed or erred is part of the total, and what passed is the rest.
* `Duration.foldlM_addCarrying?`: times that fit together are added exactly, one after another.
* `Suite.foldl_push`: what cases add to any suite.
* `Suite.ofCases_tally`: the counts and the time of a suite that is built from its cases.
-/

namespace TestOrchestrator

/-! ## Statuses -/

/-- An error wins over a failure, a failure over a skip. -/
theorem Case.status_iff (c : Case) :
    (c.status = .error ↔ c.error.isSome) ∧ (c.status = .fail ↔ c.error = none ∧ c.failure.isSome) ∧
      (c.status = .skip ↔ c.error = none ∧ c.failure = none ∧ c.skipped.isSome) ∧
      (c.status = .pass ↔ c.error = none ∧ c.failure = none ∧ c.skipped = none) := by
  cases herror : c.error with
  | some note => simp [status, herror]
  | none =>
    cases hfailure : c.failure with
    | some note => simp [status, herror, hfailure]
    | none => cases hskipped : c.skipped <;> simp [status, herror, hfailure, hskipped]

/-! ## Counts -/

namespace Counts

/-- The cases counted by their status. -/
def ofCases (cases : List Case) : Counts where
  total := cases.length
  skipped := cases.countP (·.status = .skip)
  failures := cases.countP (·.status = .fail)
  errors := cases.countP (·.status = .error)

theorem add_ofCases_cons (counts : Counts) (c : Case) (cases : List Case) :
    (counts.count c.status).add (ofCases cases) = counts.add (ofCases (c :: cases)) := by
  cases hc : c.status <;> simp [count, add, ofCases, hc] <;> omega

/-- Every case has just one status. -/
theorem passed_ofCases (cases : List Case) :
    (ofCases cases).Consistent ∧ (ofCases cases).passed = cases.countP (·.status = .pass) := by
  have hparts : cases.countP (·.status = .pass) +
      ((ofCases cases).skipped + (ofCases cases).failures +
      (ofCases cases).errors) = (ofCases cases).total := by
    induction cases with
    | nil => rfl
    | cons c cases ih =>
      simp only [ofCases] at ih ⊢
      cases hc : c.status <;> simp [hc] <;> omega
  have hconsistent : (ofCases cases).Consistent := by
    rw [Consistent]
    omega
  have hpassed := consistent_iff.1 hconsistent
  exact ⟨hconsistent, by omega⟩

end Counts

/-! ## Times -/

/-- **Times that fit together are added exactly**, with a carry for each full second. -/
theorem Duration.foldlM_addCarrying? {d : Duration} {ds : List Duration}
    (h : d.nanos + (ds.map nanos).sum ≤ longest.nanos) :
    ds.foldlM addCarrying? d = some (ds.foldl add d) ∧
      (ds.foldl add d).nanos = d.nanos + (ds.map nanos).sum := by
  induction ds generalizing d with
  | nil => exact ⟨rfl, rfl⟩
  | cons e ds ih =>
    rw [List.map_cons, List.sum_cons] at h
    have hlongest : longest.nanos < wordLimit * 1000000000 := longest.lt
    obtain ⟨sum, hsum⟩ : ∃ sum : Duration, sum.nanos = d.nanos + e.nanos :=
      ⟨⟨d.nanos + e.nanos, by omega⟩, rfl⟩
    have hadd : d.add e = sum := by rw [add, add?_eq_some_iff.2 hsum, Option.getD_some]
    obtain ⟨hfold, hnanos⟩ := ih (d := sum) (by omega)
    rw [List.foldlM_cons, List.foldl_cons, hadd, addCarrying?_eq_some_iff.2 hsum, List.map_cons,
      List.sum_cons, hnanos, hsum]
    exact ⟨hfold, Nat.add_assoc _ _ _⟩

/-! ## Suites -/

namespace Suite

/-- **What cases add to a suite**: each is counted, its time is added, and it comes last. -/
theorem foldl_push (s : Suite) (cases : List Case) : cases.foldl push s =
    { s with
      counts := s.counts.add (.ofCases cases)
      time := (cases.map (·.time)).foldl Duration.add s.time
      cases := s.cases ++ cases } := by
  induction cases generalizing s with
  | nil => simp [Counts.add, Counts.ofCases]
  | cons c cases ih =>
    rw [List.foldl_cons, ih, push, Counts.add_ofCases_cons, List.append_assoc]
    rfl

/-- **A suite that is built from its cases.** It lists the cases in order. Its counts are the
numbers of the cases, of all and of those with each status, and an error wins over a failure, a
failure over a skip. No case is counted twice: what passed is the number of the cases without a
note. Its time is the sum of the times of the cases, a second carried for every full one. -/
theorem ofCases_tally (now : Timestamp) (name : String) {cases : List Case}
    (h : (cases.map (·.time.nanos)).sum ≤ Duration.longest.nanos) :
    let s := ofCases now name cases
    (s.name = name ∧ s.timestamp = some now ∧ s.cases = cases) ∧
    (s.counts.total = cases.length ∧ s.counts.errors = cases.countP (·.status = .error) ∧
      s.counts.failures = cases.countP (·.status = .fail) ∧
        s.counts.skipped = cases.countP (·.status = .skip)) ∧
    (s.passed = cases.countP (·.status = .pass) ∧
      s.counts.total = s.passed + s.counts.skipped + s.counts.failures + s.counts.errors) ∧
    (∀ c ∈ cases, (c.status = .error ↔ c.error.isSome) ∧
      (c.status = .fail ↔ c.error = none ∧ c.failure.isSome) ∧
      (c.status = .skip ↔ c.error = none ∧ c.failure = none ∧ c.skipped.isSome) ∧
      (c.status = .pass ↔ c.error = none ∧ c.failure = none ∧ c.skipped = none)) ∧
    s.time.nanos = (cases.map (·.time.nanos)).sum ∧
      (cases.map (·.time)).foldlM Duration.addCarrying? .zero = some s.time := by
  intro s
  have hs : s = { empty now name with
      counts := Counts.add {} (.ofCases cases)
      time := (cases.map (·.time)).foldl Duration.add .zero
      cases } := foldl_push (empty now name) cases
  have hcounts : s.counts = .ofCases cases := by
    rw [hs]
    simp [Counts.add]
  have htimes : Duration.zero.nanos + ((cases.map (·.time)).map Duration.nanos).sum ≤
      Duration.longest.nanos := by
    rw [List.map_map]
    exact Nat.le_trans (Nat.le_of_eq (Nat.zero_add _)) h
  obtain ⟨hfold, hnanos⟩ := Duration.foldlM_addCarrying? htimes
  obtain ⟨hconsistent, hpassed⟩ := Counts.passed_ofCases cases
  have htotal := Counts.consistent_iff.1 hconsistent
  rw [List.map_map] at hnanos
  refine ⟨by rw [hs]; exact ⟨rfl, rfl, rfl⟩, by rw [hcounts]; exact ⟨rfl, rfl, rfl, rfl⟩, ?_,
    fun c _ => c.status_iff, ?_, ?_⟩
  · rw [passed, hcounts, ← hpassed]
    exact ⟨rfl, by omega⟩
  · rw [hs]
    exact hnanos.trans (Nat.zero_add _)
  · rw [hs]
    exact hfold

/-- A case of each status, one with several notes, and times that make up a full second. -/
theorem ofCases_tally_of_mixed :
    let cases : List Case := [
      { name := "a", time := ⟨999999999, by decide⟩ },
      { name := "b", failure := some ⟨"timeout", none⟩, skipped := some ⟨"off", none⟩,
        time := ⟨2, by decide⟩ },
      { name := "c", skipped := some ⟨"disabled", none⟩ },
      { name := "d", error := some ⟨"crash", none⟩, failure := some ⟨"boom", none⟩,
        skipped := some ⟨"off", none⟩ }]
    let s := ofCases ⟨2024, 1, 2, 3, 4, 5, 0⟩ "ping" cases
    (cases.map (·.time.nanos)).sum ≤ Duration.longest.nanos ∧ s.cases = cases ∧
      s.counts = ⟨4, 1, 1, 1⟩ ∧
      s.passed = 1 ∧ s.time.nanos = 1000000001 := by
  intro cases s
  have hfits : (cases.map (·.time.nanos)).sum ≤ Duration.longest.nanos := by decide
  obtain ⟨⟨-, -, hcases⟩, ⟨ht, he, hf, hk⟩, ⟨hpassed, -⟩, -, htime, -⟩ :=
    ofCases_tally ⟨2024, 1, 2, 3, 4, 5, 0⟩ "ping" hfits
  refine ⟨hfits, hcases, ?_, hpassed, htime⟩
  show (⟨s.counts.total, s.counts.skipped, s.counts.failures, s.counts.errors⟩ : Counts) = _
  rw [ht, he, hf, hk]
  rfl

end Suite

end TestOrchestrator
