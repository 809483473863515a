import TestOrchestrator.Proofs.Merging
import TestOrchestrator.Report.Rendering
/-!
# What a report keeps

A report is a running sum. Each outcome that it takes ends in one of two lists, and its counts are
those of the suites in the first.

* `Recorded outcome xs kept es` says what becomes of outcomes that come in order: a suite that fits
  with those kept so far is kept, all else is noted as an error.
* `Report.handle r q` is the answer to a request and the report after it. A report that takes
  several outcomes takes them one by one (`settle_fold?`).
* `Keeps outcome r xs` is what holds of every report that has taken the outcomes of `xs`;
  `Keeps.take` takes one more.
* `Report.handleAll_start` says this of a report that is new, after any requests, and that nothing
  but the first closing of a report decides whether it takes more.
-/

namespace TestOrchestrator

/-! ## Outcomes in order -/

/-- What becomes of outcomes in order. `kept` are those with a suite whose counts, added to the
counts of all kept before it, stay below the limit; each comes with its suite. The others leave an
error. -/
inductive Recorded {α : Type} (outcome : α → Outcome) :
    List α → List (α × Suite) → List ExecutionError → Prop
  | nil : Recorded outcome [] [] []
  | listed {xs : List α} {kept : List (α × Suite)} {es : List ExecutionError} {x : α} {s : Suite}
      (before : Recorded outcome xs kept es) (suite : outcome x = .suite s)
      (fits : (totalCounts (kept.map Prod.snd ++ [s])).Fits) :
      Recorded outcome (xs ++ [x]) (kept ++ [(x, s)]) es
  | unfit {xs : List α} {kept : List (α × Suite)} {es : List ExecutionError} {x : α} {s : Suite}
      (before : Recorded outcome xs kept es) (suite : outcome x = .suite s)
      (large : ¬(totalCounts (kept.map Prod.snd ++ [s])).Fits) :
      Recorded outcome (xs ++ [x]) kept (es ++ [overflowError s])
  | failed {xs : List α} {kept : List (α × Suite)} {es : List ExecutionError} {x : α}
      {err : ExecutionError} (before : Recorded outcome xs kept es)
      (error : outcome x = .error err) :
      Recorded outcome (xs ++ [x]) kept (es ++ [err])

namespace Recorded

variable {α : Type} {outcome : α → Outcome} {xs : List α} {kept : List (α × Suite)}
  {es : List ExecutionError}

theorem fits (h : Recorded outcome xs kept es) : (totalCounts (kept.map Prod.snd)).Fits := by
  induction h with
  | nil => exact fit_nil.counts
  | listed before suite fits ih => rwa [List.map_append]
  | unfit before suite large ih => exact ih
  | failed before error ih => exact ih

/-- Every outcome is in one of the lists, once. -/
theorem length_eq (h : Recorded outcome xs kept es) : xs.length = kept.length + es.length := by
  induction h with
  | nil => rfl
  | listed before suite fits ih =>
    rw [List.length_append, List.length_append, ih, List.length_singleton, List.length_singleton]
    omega
  | unfit before suite large ih =>
    rw [List.length_append, List.length_append, ih, List.length_singleton, List.length_singleton]
    omega
  | failed before error ih =>
    rw [List.length_append, List.length_append, ih, List.length_singleton, List.length_singleton]
    omega

theorem suite_of_mem (h : Recorded outcome xs kept es) : ∀ p ∈ kept, outcome p.1 = .suite p.2 := by
  induction h with
  | nil => exact fun _ hp => absurd hp List.not_mem_nil
  | listed before suite fits ih =>
    intro p hp
    rcases List.mem_append.1 hp with hp | hp
    · exact ih p hp
    · rw [List.mem_singleton.1 hp]
      exact suite
  | unfit before suite large ih => exact ih
  | failed before error ih => exact ih

/-- What is kept was there, in the same order. -/
theorem sublist (h : Recorded outcome xs kept es) : (kept.map Prod.fst).Sublist xs := by
  induction h with
  | nil => exact .slnil
  | listed before suite fits ih =>
    rw [List.map_append]
    exact ih.append (.refl _)
  | unfit before suite large ih => exact ih.trans (List.sublist_append_left _ _)
  | failed before error ih => exact ih.trans (List.sublist_append_left _ _)

end Recorded

/-! ## Requests -/

/-- What a report can be asked. -/
inductive Request : Type 1 where
  | add (o : Outcome)
  | fold (os : List Outcome)
  | finish (elapsed : Duration)
  | emit {ω : Type} (f : Format) (w : Writer ω) (out : ω)

namespace Request

/-- A request that closes a report. -/
def Closes : Request → Prop
  | finish _ => True
  | _ => False

/-- A request that a closed report refuses. -/
def Changes : Request → Prop
  | add _ => True
  | fold os => os ≠ []
  | finish _ => True
  | emit .. => False

/-- The outcomes that come with requests, up to the first request that closes the report. -/
def offered : List Request → List Outcome
  | [] => []
  | add o :: qs => o :: offered qs
  | fold os :: qs => os ++ offered qs
  | finish _ :: _ => []
  | emit .. :: qs => offered qs

end Request

namespace Report

/-- What a change leaves: the changed report, or the report as it was if the change is refused. -/
def settle (r : Report) : Except ReportError Report → Except ReportError Unit × Report
  | .ok r' => (.ok (), r')
  | .error why => (.error why, r)

/-- The answer to a request, and the report after it. -/
def handle (r : Report) : Request → Except ReportError Unit × Report
  | .add o => r.settle (r.add? o)
  | .fold os => r.settle (r.fold? os)
  | .finish elapsed => r.settle (r.finish? elapsed)
  | .emit f w out => ((r.emit f w out).1, r)

/-- The report after requests in order. -/
def handleAll (r : Report) (qs : List Request) : Report := qs.foldl (fun r q => (r.handle q).2) r

/-- Adds outcomes one by one to the same report, up to the first one that is refused. -/
def addEach (r : Report) : List Outcome → Except ReportError Unit × Report
  | [] => (.ok (), r)
  | o :: os =>
    match r.handle (.add o) with
    | (.ok (), r') => addEach r' os
    | refused => refused

variable {r : Report} {o : Outcome} {os : List Outcome} {q : Request} {qs : List Request}

@[simp] theorem take_finalized (r : Report) (o : Outcome) : (r.take o).finalized = r.finalized := by
  cases o with
  | error err => rfl
  | suite s =>
    rw [take]
    cases r.counts.add? s.counts <;> rfl

theorem add?_of_open (h : r.finalized = false) (o : Outcome) : r.add? o = .ok (r.take o) := by
  rw [add?, h]
  rfl

theorem add?_of_closed (h : r.finalized = true) (o : Outcome) :
    r.add? o = .error .alreadyFinalized := by
  rw [add?, h]
  rfl

theorem fold?_of_open (h : r.finalized = false) (os : List Outcome) :
    r.fold? os = .ok (os.foldl take r) := by
  induction os generalizing r with
  | nil => rfl
  | cons o os ih =>
    rw [fold?, List.foldlM_cons, add?_of_open h]
    exact ih ((take_finalized r o).trans h)

theorem fold?_of_closed (h : r.finalized = true) (hos : os ≠ []) :
    r.fold? os = .error .alreadyFinalized := by
  obtain ⟨o, os, rfl⟩ := List.exists_cons_of_ne_nil hos
  rw [fold?, List.foldlM_cons, add?_of_closed h]
  rfl

/-- A report takes several outcomes as it takes each of them: nothing is taken before a refusal. -/
theorem settle_fold? (r : Report) (os : List Outcome) : r.settle (r.fold? os) = r.addEach os := by
  cases h : r.finalized with
  | true =>
    cases os with
    | nil => rfl
    | cons o os =>
      rw [fold?_of_closed h (List.cons_ne_nil o os), addEach, handle, add?_of_closed h]
      rfl
  | false =>
    induction os generalizing r with
    | nil => rfl
    | cons o os ih =>
      have ih := ih (r.take o) ((take_finalized r o).trans h)
      rw [fold?_of_open ((take_finalized r o).trans h)] at ih
      rw [fold?_of_open h, addEach, handle, add?_of_open h]
      exact ih

/-! ## Open and closed reports -/

theorem handle_of_closed (h : r.finalized = true) (q : Request) :
    (r.handle q).2 = r ∧ (q.Changes → (r.handle q).1 = .error .alreadyFinalized) := by
  cases q with
  | add o =>
    rw [handle, add?_of_closed h]
    exact ⟨rfl, fun _ => rfl⟩
  | fold os =>
    by_cases hos : os = []
    · subst hos
      exact ⟨rfl, fun hchanges => absurd rfl hchanges⟩
    · rw [handle, fold?_of_closed h hos]
      exact ⟨rfl, fun _ => rfl⟩
  | finish elapsed =>
    rw [handle, finish?, h]
    exact ⟨rfl, fun _ => rfl⟩
  | emit f w out => exact ⟨rfl, False.elim⟩

theorem handleAll_of_closed (h : r.finalized = true) (qs : List Request) : r.handleAll qs = r := by
  induction qs with
  | nil => rfl
  | cons q qs ih => rw [handleAll, List.foldl_cons, (handle_of_closed h q).1, ← handleAll, ih]

theorem emit_of_open {ω : Type} (h : r.finalized = false) (f : Format) (w : Writer ω) (out : ω) :
    r.emit f w out = (.error .notFinalized, ⟨[], none, out⟩) := by
  rw [emit, h]
  rfl

/-- A closed report is written, with a line feed behind it. -/
theorem emit_of_closed {ω : Type} (h : r.finalized = true) (f : Format) (w : Writer ω) (out : ω) :
    r.emit f w out =
      let d := writeAll w [r.document f, "\n"] out
      (d.refusal.elim (.ok ()) fun why => .error (.io why), d) := by
  unfold emit
  rw [if_pos h]
  generalize writeAll w [r.document f, "\n"] out = d
  obtain ⟨bytes, refusal, out⟩ := d
  cases refusal <;> rfl

/-- What an open report does with each request. -/
theorem handle_of_open (h : r.finalized = false) (q : Request) :
    match q with
    | .add o => r.handle q = (.ok (), r.take o)
    | .fold os => r.handle q = (.ok (), os.foldl take r)
    | .finish elapsed => r.handle q = (.ok (), { r with time := elapsed, finalized := true })
    | .emit f w out => r.emit f w out = (.error .notFinalized, ⟨[], none, out⟩) ∧
        r.handle q = (.error .notFinalized, r) := by
  cases q with
  | add o =>
    dsimp only
    rw [handle, add?_of_open h, settle]
  | fold os =>
    dsimp only
    rw [handle, fold?_of_open h, settle]
  | finish elapsed =>
    dsimp only
    rw [handle, finish?, h]
    rfl
  | emit f w out =>
    dsimp only
    rw [handle, emit_of_open h]
    exact ⟨rfl, rfl⟩

theorem foldl_take_finalized (r : Report) (os : List Outcome) :
    (os.foldl take r).finalized = r.finalized := by
  induction os generalizing r with
  | nil => rfl
  | cons o os ih => rw [List.foldl_cons, ih, take_finalized]

end Report

/-! ## What holds of a report -/

/-- A report that has taken the outcomes of some things in order. -/
structure Keeps {α : Type} (outcome : α → Outcome) (r : Report) (xs : List α) : Prop where
  counts_eq : r.counts = totalCounts r.suites
  recorded : ∃ kept, Recorded outcome xs kept r.errors ∧ kept.map Prod.snd = r.suites

namespace Keeps

open Report

section

variable {α : Type} {outcome : α → Outcome} {r : Report} {xs : List α}

theorem start (now : Timestamp) (name version : String) :
    Keeps outcome (.start now name version) [] :=
  ⟨rfl, [], .nil, rfl⟩

/-- One outcome more. -/
theorem take (h : Keeps outcome r xs) (x : α) : Keeps outcome (r.take (outcome x)) (xs ++ [x]) := by
  obtain ⟨hcounts, kept, hrecorded, hkept⟩ := h
  cases hx : outcome x with
  | error err => exact ⟨hcounts, kept, .failed hrecorded hx, hkept⟩
  | suite s =>
    have hsum : totalCounts (kept.map Prod.snd ++ [s]) = r.counts.add s.counts := by
      rw [hkept, totalCounts_concat, hcounts]
    rw [Report.take]
    cases hadd : r.counts.add? s.counts with
    | some counts =>
      obtain ⟨hfits, rfl⟩ := Counts.add?_eq_some_iff.1 hadd
      refine ⟨?_, kept ++ [(x, s)], .listed hrecorded hx (hsum ▸ hfits), ?_⟩
      · rw [hcounts]
        exact totalCounts_concat.symm
      · rw [List.map_append, hkept]
        rfl
    | none =>
      have hover : ¬(r.counts.add s.counts).Fits := by
        intro hfits
        rw [Counts.add?_eq_some_iff.2 ⟨hfits, rfl⟩] at hadd
        cases hadd
      exact ⟨hcounts, kept, .unfit hrecorded hx (hsum ▸ hover), hkept⟩

theorem foldl_take (h : Keeps outcome r xs) (ys : List α) :
    Keeps outcome ((ys.map outcome).foldl Report.take r) (xs ++ ys) := by
  induction ys generalizing r xs with
  | nil => rwa [List.append_nil]
  | cons y ys ih =>
    rw [List.append_cons]
    exact ih (h.take y)

/-- Closing a report changes nothing that it keeps. -/
theorem closed (h : Keeps outcome r xs) (elapsed : Duration) :
    Keeps outcome { r with time := elapsed, finalized := true } xs :=
  ⟨h.counts_eq, h.recorded⟩

theorem hasErrors_iff (h : Keeps outcome r xs) :
    r.hasErrors = true ↔ ∃ s ∈ r.suites, 0 < s.counts.errors := by
  have hsum : r.counts.errors = (r.suites.map (·.counts.errors)).sum := by
    rw [h.counts_eq, totalCounts]
  rw [hasErrors, decide_eq_true_eq, hsum, List.sum_pos_iff_exists_pos_nat]
  simp

end

/-- Requests add what they offer. -/
theorem handleAll {r : Report} {os : List Outcome} (h : Keeps id r os) (hopen : r.finalized = false)
    (qs : List Request) : Keeps id (r.handleAll qs) (os ++ Request.offered qs) := by
  induction qs generalizing r os with
  | nil =>
    rw [Request.offered, List.append_nil]
    exact h
  | cons q qs ih =>
    have hq := handle_of_open hopen q
    rw [Report.handleAll, List.foldl_cons, ← Report.handleAll]
    cases q with
    | add o =>
      dsimp only at hq
      rw [hq, Request.offered, List.append_cons]
      exact ih (h.take o) ((take_finalized r o).trans hopen)
    | fold os' =>
      dsimp only at hq
      rw [hq, Request.offered, ← List.append_assoc]
      have hfold := h.foldl_take os'
      rw [List.map_id] at hfold
      exact ih hfold ((foldl_take_finalized r os').trans hopen)
    | finish elapsed =>
      dsimp only at hq
      rw [hq, handleAll_of_closed rfl, Request.offered, List.append_nil]
      exact h.closed elapsed
    | emit f w out =>
      dsimp only at hq
      rw [hq.2, Request.offered]
      exact ih h hopen

end Keeps

/-- A report is closed just when a request has closed it. -/
theorem Report.handleAll_finalized_iff {r : Report} (h : r.finalized = false) (qs : List Request) :
    (r.handleAll qs).finalized = true ↔ ∃ q ∈ qs, q.Closes := by
  induction qs generalizing r with
  | nil => simp [handleAll, h]
  | cons q qs ih =>
    have hq := handle_of_open h q
    rw [handleAll, List.foldl_cons, ← handleAll]
    cases q with
    | add o =>
      dsimp only at hq
      rw [hq, ih ((take_finalized r o).trans h)]
      simp [Request.Closes]
    | fold os =>
      dsimp only at hq
      rw [hq, ih ((foldl_take_finalized r os).trans h)]
      simp [Request.Closes]
    | finish elapsed =>
      dsimp only at hq
      rw [hq, handleAll_of_closed rfl]
      simp [Request.Closes]
    | emit f w out =>
      dsimp only at hq
      rw [hq.2, ih h]
      simp [Request.Closes]

/-- **What a new report keeps after any requests.** Its counts are the sums of those of its suites
and below the limit. The outcomes offered before it was closed are all in its lists, in order; those
that are not listed as suites are the errors and the suites that did not fit. Until it is closed it
refuses only to be written; from then on it refuses every change and stays as it is. -/
theorem Report.handleAll_start (now : Timestamp) (name version : String) (qs : List Request) :
    let r := (Report.start now name version).handleAll qs
    (r.counts = totalCounts r.suites ∧ r.counts.Fits) ∧
    (∃ kept, Recorded id (Request.offered qs) kept r.errors ∧ kept.map Prod.snd = r.suites) ∧
    (Request.offered qs).length = r.suites.length + r.errors.length ∧
    (r.hasErrors = true ↔ ∃ s ∈ r.suites, 0 < s.counts.errors) ∧
    ((∀ q ∈ qs, ¬q.Closes) →
      (∀ o, (r.handle (.add o)).1 = .ok ()) ∧ (∀ os, (r.handle (.fold os)).1 = .ok ()) ∧
      (∀ elapsed, (r.handle (.finish elapsed)).1 = .ok ()) ∧
      ∀ {ω : Type} (f : Format) (w : Writer ω) (out : ω),
        r.emit f w out = (.error .notFinalized, ⟨[], none, out⟩)) ∧
    ((∃ q ∈ qs, q.Closes) →
      (∀ q, q.Changes → (r.handle q).1 = .error .alreadyFinalized) ∧
      ∀ more, (Report.start now name version).handleAll (qs ++ more) = r) := by
  intro r
  have hkeeps : Keeps id r (Request.offered qs) := (Keeps.start now name version).handleAll rfl qs
  have hclosed : r.finalized = true ↔ ∃ q ∈ qs, q.Closes := handleAll_finalized_iff rfl qs
  obtain ⟨kept, hrecorded, hkept⟩ := hkeeps.recorded
  refine ⟨⟨hkeeps.counts_eq, ?_⟩, ⟨kept, hrecorded, hkept⟩, ?_, hkeeps.hasErrors_iff, ?_, ?_⟩
  · rw [hkeeps.counts_eq, ← hkept]
    exact hrecorded.fits
  · rw [hrecorded.length_eq, ← hkept, List.length_map]
  · intro hnone
    have hopen : r.finalized = false := by
      rw [← Bool.not_eq_true, hclosed]
      rintro ⟨q, hq, hcloses⟩
      exact hnone q hq hcloses
    refine ⟨fun o => ?_, fun os => ?_, fun elapsed => ?_, fun f w out => emit_of_open hopen f w out⟩
    · exact congrArg Prod.fst (handle_of_open hopen (.add o))
    · exact congrArg Prod.fst (handle_of_open hopen (.fold os))
    · exact congrArg Prod.fst (handle_of_open hopen (.finish elapsed))
  · intro hsome
    have hclosed := hclosed.2 hsome
    refine ⟨fun q => (handle_of_closed hclosed q).2, fun more => ?_⟩
    rw [handleAll, List.foldl_append]
    exact handleAll_of_closed hclosed more

end TestOrchestrator
