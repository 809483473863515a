import TestOrchestrator.Proofs.Accounts
/-!
# What a report does not count

A report notes an error for each outcome that it does not count: the error that the outcome is, or
one that stands for a suite that does not fit.

* `LostAt os i err` says which error stands for the outcome at one place, by the outcomes before it
  alone.
* `Recorded.exists_losses` says that these are the errors that are noted, one for each such place
  and in their order.
* `Report.foldl_take_of_fits`: if all suites fit together, nothing is lost but what is an error.
-/

namespace TestOrchestrator

/-- The suite, if it is one. -/
def Outcome.suite? : Outcome → Option Suite
  | suite s => some s
  | error _ => none

/-! ## One record for outcomes in order -/

namespace Recorded

variable {α : Type} {outcome : α → Outcome} {xs : List α} {x : α} {kept kept' : List (α × Suite)}
  {es es' : List ExecutionError}

/-- What became of the last of some outcomes. -/
theorem concat_cases (h : Recorded outcome (xs ++ [x]) kept es) :
    ∃ kept' es', Recorded outcome xs kept' es' ∧
      ((∃ s, outcome x = .suite s ∧ (totalCounts (kept'.map Prod.snd ++ [s])).Fits ∧
          kept = kept' ++ [(x, s)] ∧ es = es') ∨
        (∃ s, outcome x = .suite s ∧ ¬(totalCounts (kept'.map Prod.snd ++ [s])).Fits ∧
          kept = kept' ∧ es = es' ++ [overflowError s]) ∨
        ∃ err, outcome x = .error err ∧ kept = kept' ∧ es = es' ++ [err]) := by
  generalize hys : xs ++ [x] = ys at h
  cases h with
  | nil => simp at hys
  | listed before suite fits =>
    obtain ⟨rfl, hx⟩ := List.append_inj' hys rfl
    cases hx
    exact ⟨_, _, before, .inl ⟨_, suite, fits, rfl, rfl⟩⟩
  | unfit before suite large =>
    obtain ⟨rfl, hx⟩ := List.append_inj' hys rfl
    cases hx
    exact ⟨_, _, before, .inr (.inl ⟨_, suite, large, rfl, rfl⟩)⟩
  | failed before error =>
    obtain ⟨rfl, hx⟩ := List.append_inj' hys rfl
    cases hx
    exact ⟨_, _, before, .inr (.inr ⟨_, error, rfl, rfl⟩)⟩

/-- Outcomes in order leave no choice. -/
theorem unique (h : Recorded outcome xs kept es) (h' : Recorded outcome xs kept' es') :
    kept = kept' ∧ es = es' := by
  induction h generalizing kept' es' with
  | nil =>
    generalize hys : ([] : List α) = ys at h'
    cases h' with
    | nil => exact ⟨rfl, rfl⟩
    | listed => simp at hys
    | unfit => simp at hys
    | failed => simp at hys
  | listed before suite fits ih =>
    obtain ⟨kept₁, es₁, before', hcases⟩ := h'.concat_cases
    obtain ⟨rfl, rfl⟩ := ih before'
    rcases hcases with ⟨s, hs, -, rfl, rfl⟩ | ⟨s, hs, hlarge, -, -⟩ | ⟨err, herr, -, -⟩
    · cases suite.symm.trans hs
      exact ⟨rfl, rfl⟩
    · cases suite.symm.trans hs
      exact absurd fits hlarge
    · cases suite.symm.trans herr
  | unfit before suite large ih =>
    obtain ⟨kept₁, es₁, before', hcases⟩ := h'.concat_cases
    obtain ⟨rfl, rfl⟩ := ih before'
    rcases hcases with ⟨s, hs, hfits, -, -⟩ | ⟨s, hs, -, rfl, rfl⟩ | ⟨err, herr, -, -⟩
    · cases suite.symm.trans hs
      exact absurd hfits large
    · cases suite.symm.trans hs
      exact ⟨rfl, rfl⟩
    · cases suite.symm.trans herr
  | failed before error ih =>
    obtain ⟨kept₁, es₁, before', hcases⟩ := h'.concat_cases
    obtain ⟨rfl, rfl⟩ := ih before'
    rcases hcases with ⟨s, hs, -, -, -⟩ | ⟨s, hs, -, -, -⟩ | ⟨err, herr, rfl, rfl⟩
    · cases error.symm.trans hs
    · cases error.symm.trans hs
    · cases error.symm.trans herr
      exact ⟨rfl, rfl⟩

end Recorded

/-! ## Places -/

/-- The outcome at a place is not counted, and an error stands for it: the outcome is that error, or
it is a suite whose counts, with those of all suites counted before it, reach the limit. -/
inductive LostAt (os : List Outcome) : Nat → ExecutionError → Prop
  | failed {i : Nat} {err : ExecutionError} (outcome : os[i]? = some (.error err)) : LostAt os i err
  | unfit {i : Nat} {s : Suite} {kept : List (Outcome × Suite)} {es : List ExecutionError}
      (outcome : os[i]? = some (.suite s)) (before : Recorded id (os.take i) kept es)
      (large : ¬(totalCounts (kept.map Prod.snd ++ [s])).Fits) : LostAt os i (overflowError s)

namespace LostAt

variable {os : List Outcome} {o : Outcome} {i : Nat} {err : ExecutionError}
  {kept : List (Outcome × Suite)} {es : List ExecutionError}

theorem lt (h : LostAt os i err) : i < os.length := by
  cases h with
  | failed outcome => exact (List.getElem?_eq_some_iff.1 outcome).1
  | unfit outcome before large => exact (List.getElem?_eq_some_iff.1 outcome).1

/-- Whether an outcome is lost does not depend on those after it. -/
theorem concat_iff (hi : i < os.length) : LostAt (os ++ [o]) i err ↔ LostAt os i err := by
  have hget : (os ++ [o])[i]? = os[i]? := List.getElem?_append_left hi
  have htake : (os ++ [o]).take i = os.take i := List.take_append_of_le_length (Nat.le_of_lt hi)
  constructor
  · intro h
    cases h with
    | failed outcome => exact .failed (hget ▸ outcome)
    | unfit outcome before large => exact .unfit (hget ▸ outcome) (htake ▸ before) large
  · intro h
    cases h with
    | failed outcome => exact .failed (hget.trans outcome)
    | unfit outcome before large => exact .unfit (hget.trans outcome) (htake.symm ▸ before) large

/-- What stands for the last of some outcomes. -/
theorem last_iff (before : Recorded id os kept es) :
    LostAt (os ++ [o]) os.length err ↔
      o = .error err ∨
        ∃ s, o = .suite s ∧ ¬(totalCounts (kept.map Prod.snd ++ [s])).Fits ∧
          err = overflowError s := by
  have hget : (os ++ [o])[os.length]? = some o := List.getElem?_concat_length
  have htake : (os ++ [o]).take os.length = os := List.take_left
  constructor
  · intro h
    cases h with
    | failed outcome => exact .inl (Option.some.inj (hget.symm.trans outcome))
    | unfit outcome before' large =>
      rw [htake] at before'
      obtain ⟨rfl, rfl⟩ := before.unique before'
      exact .inr ⟨_, Option.some.inj (hget.symm.trans outcome), large, rfl⟩
  · rintro (rfl | ⟨s, rfl, large, rfl⟩)
    · exact .failed hget
    · exact .unfit hget (htake.symm ▸ before) large

end LostAt

/-- The places of all outcomes that are lost, in order, and the errors that stand for them. -/
structure Losses (os : List Outcome) (places : List Nat) (es : List ExecutionError) : Prop where
  sorted : places.Pairwise (· < ·)
  errors : List.Forall₂ (LostAt os) places es
  complete : ∀ i err, LostAt os i err → i ∈ places

namespace Losses

variable {os : List Outcome} {o : Outcome} {places : List Nat} {es : List ExecutionError}

theorem nil : Losses [] [] [] := ⟨.nil, .nil, fun _ _ h => absurd h.lt (Nat.not_lt_zero _)⟩

theorem lt (h : Losses os places es) : ∀ i ∈ places, i < os.length :=
  ((List.forall₂_and_left places es).1 (h.errors.imp fun _ _ hlost => ⟨hlost.lt, hlost⟩)).1

/-- The same places with one outcome more behind. -/
theorem errors_concat (h : Losses os places es) (o : Outcome) :
    List.Forall₂ (LostAt (os ++ [o])) places es :=
  h.errors.imp fun _ _ hlost => (LostAt.concat_iff hlost.lt).2 hlost

theorem mem_or_eq_of_concat (h : Losses os places es) {i : Nat} {err : ExecutionError}
    (hlost : LostAt (os ++ [o]) i err) : i ∈ places ∨ i = os.length := by
  have hlt : i < os.length + 1 := by simpa using hlost.lt
  rcases Nat.lt_succ_iff_lt_or_eq.1 hlt with hi | hi
  · exact .inl (h.complete i err ((LostAt.concat_iff hi).1 hlost))
  · exact .inr hi

/-- One outcome more that is counted. -/
theorem counted (h : Losses os places es) (hlast : ∀ err, ¬LostAt (os ++ [o]) os.length err) :
    Losses (os ++ [o]) places es where
  sorted := h.sorted
  errors := h.errors_concat o
  complete i err hlost := by
    rcases h.mem_or_eq_of_concat hlost with hi | rfl
    · exact hi
    · exact absurd hlost (hlast err)

/-- One outcome more that is lost. -/
theorem lost (h : Losses os places es) {err : ExecutionError}
    (hlast : LostAt (os ++ [o]) os.length err) :
    Losses (os ++ [o]) (places ++ [os.length]) (es ++ [err]) where
  sorted := by
    rw [List.pairwise_append]
    refine ⟨h.sorted, List.pairwise_singleton _ _, fun i hi j hj => ?_⟩
    rw [List.mem_singleton.1 hj]
    exact h.lt i hi
  errors := List.rel_append (h.errors_concat o) (.cons hlast .nil)
  complete i err hlost := by
    rcases h.mem_or_eq_of_concat hlost with hi | rfl
    · exact List.mem_append_left _ hi
    · exact List.mem_append_right _ (List.mem_singleton_self _)

/-- There is no error just when no outcome is lost. -/
theorem eq_nil_iff (h : Losses os places es) : es = [] ↔ ∀ i err, ¬LostAt os i err := by
  obtain ⟨-, herrors, hcomplete⟩ := h
  constructor
  · rintro rfl i err hlost
    cases herrors
    exact absurd (hcomplete i err hlost) List.not_mem_nil
  · intro hnone
    cases herrors with
    | nil => rfl
    | cons hlost _ => exact absurd hlost (hnone _ _)

end Losses

/-- **The errors that a report notes** are those that stand for the outcomes that are lost, one for
each, in order. -/
theorem Recorded.exists_losses {os : List Outcome} {kept : List (Outcome × Suite)}
    {es : List ExecutionError} (h : Recorded id os kept es) : ∃ places, Losses os places es := by
  induction h with
  | nil => exact ⟨[], .nil⟩
  | listed before suite fits ih =>
    obtain ⟨places, hlosses⟩ := ih
    refine ⟨places, hlosses.counted fun err hlost => ?_⟩
    rcases (LostAt.last_iff before).1 hlost with herr | ⟨s, hs, hlarge, -⟩
    · cases herr.symm.trans suite
    · cases hs.symm.trans suite
      exact hlarge fits
  | unfit before suite large ih =>
    obtain ⟨places, hlosses⟩ := ih
    exact ⟨_, hlosses.lost ((LostAt.last_iff before).2 (.inr ⟨_, suite, large, rfl⟩))⟩
  | failed before error ih =>
    obtain ⟨places, hlosses⟩ := ih
    exact ⟨_, hlosses.lost ((LostAt.last_iff before).2 (.inl error))⟩

/-! ## When all suites fit -/

theorem Counts.Fits.of_add {c d : Counts} (h : (c.add d).Fits) : c.Fits := by
  obtain ⟨ht, hs, hf, he⟩ := h
  exact ⟨Nat.lt_of_le_of_lt (Nat.le_add_right ..) ht, Nat.lt_of_le_of_lt (Nat.le_add_right ..) hs,
    Nat.lt_of_le_of_lt (Nat.le_add_right ..) hf, Nat.lt_of_le_of_lt (Nat.le_add_right ..) he⟩

theorem Counts.add_assoc (c d e : Counts) : (c.add d).add e = c.add (d.add e) := by
  simp [add, Nat.add_assoc]

/-- **If all suites fit together**, each of them is listed and counted, and only errors are
noted. -/
theorem Report.foldl_take_of_fits {r : Report} {os : List Outcome}
    (h : (r.counts.add (totalCounts (os.filterMap Outcome.suite?))).Fits) :
    os.foldl take r = { r with
      counts := r.counts.add (totalCounts (os.filterMap Outcome.suite?))
      suites := r.suites ++ os.filterMap Outcome.suite?
      errors := r.errors ++ os.filterMap Outcome.error? } := by
  induction os generalizing r with
  | nil => simp [totalCounts, Counts.add]
  | cons o os ih =>
    cases o with
    | error err =>
      have hsuites : (Outcome.error err :: os).filterMap Outcome.suite? =
          os.filterMap Outcome.suite? := rfl
      have herrors : (Outcome.error err :: os).filterMap Outcome.error? =
          err :: os.filterMap Outcome.error? := rfl
      rw [hsuites] at h ⊢
      rw [List.foldl_cons, take, herrors, ih (r := { r with errors := r.errors ++ [err] }) h,
        List.append_assoc, List.singleton_append]
    | suite s =>
      have hsuites : (Outcome.suite s :: os).filterMap Outcome.suite? =
          s :: os.filterMap Outcome.suite? := rfl
      have herrors : (Outcome.suite s :: os).filterMap Outcome.error? =
          os.filterMap Outcome.error? := rfl
      rw [hsuites, totalCounts_cons, ← Counts.add_assoc] at h ⊢
      have hadd : r.counts.add? s.counts = some (r.counts.add s.counts) :=
        Counts.add?_eq_some_iff.2 ⟨h.of_add, rfl⟩
      rw [List.foldl_cons, take, hadd, herrors]
      dsimp only
      rw [ih h, List.append_assoc, List.singleton_append]

/-- A new report lists and counts just these suites. -/
theorem Report.foldl_take_start_of_fits {os : List Outcome}
    (h : (totalCounts (os.filterMap Outcome.suite?)).Fits) (now : Timestamp)
    (name version : String) :
    os.foldl take (start now name version) = { start now name version with
      counts := totalCounts (os.filterMap Outcome.suite?)
      suites := os.filterMap Outcome.suite?
      errors := os.filterMap Outcome.error? } := by
  have hcounts : (start now name version).counts.add (totalCounts (os.filterMap Outcome.suite?)) =
      totalCounts (os.filterMap Outcome.suite?) := by simp [start, Counts.add]
  have hsum : ((start now name version).counts.add
      (totalCounts (os.filterMap Outcome.suite?))).Fits := hcounts.symm ▸ h
  rw [foldl_take_of_fits hsum, hcounts]
  rfl

end TestOrchestrator
