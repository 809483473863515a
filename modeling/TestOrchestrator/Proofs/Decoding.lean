import TestOrchestrator.Proofs.JsonText.Doubles
import TestOrchestrator.Proofs.Moments
import TestOrchestrator.Proofs.Renderings
/-!
# Suites from their JSON values

What is written of a suite and what is read are two tables of fields. Every field has a default on
reading.

* `Duration.Exact d` says that a duration does not change when it is written as a number of seconds
  and read.
* `Json.exists_seconds?_reread`: the text of a duration is read whenever its number of seconds is a
  duration.
* `Suite.Portable s` says that nothing of a suite is lost in JSON but parts of a millisecond.
* `Suite.ofJson?_reread`: a portable suite is read from its own text, its timestamp in whole
  milliseconds.
* `Report.ofJson?_reread`: the text of a report, read as a suite, is a suite without cases and with
  the report's counts.
-/

namespace TestOrchestrator

/-- A duration that comes back from the number of seconds that stands for it, and that number from
its text. -/
structure Duration.Exact (d : Duration) : Prop where
  seconds : ofSeconds? d.toSeconds = some d
  text : Json.double? d.toJson.reread = some d.toSeconds

/-- A suite of which JSON keeps all but parts of a millisecond. -/
structure Suite.Portable (s : Suite) : Prop where
  counts : s.counts.Fits
  time : s.time.Exact
  caseTimes : ∀ c ∈ s.cases, c.time.Exact
  timestamp : ∀ t ∈ s.timestamp, t.Valid

/-- The suite with its timestamp in whole milliseconds. -/
def Suite.toMillis (s : Suite) : Suite := { s with timestamp := s.timestamp.map Timestamp.toMillis }

/-- A report as a suite without cases that took some time, as if its timestamp were in whole
milliseconds. -/
def Report.condensed (r : Report) (time : Duration) : Suite where
  name := r.name
  counts := r.counts
  time := time
  timestamp := some r.started.toMillis

/-! ## Durations -/

namespace Duration

open Decimal

variable {m : Nat} {e : Int}

theorem value_lt_of_ofSeconds? {neg : Bool} {d : Duration}
    (h : ofSeconds? (.finite neg m e) = some d) :
    (m = 0 ∨ neg = false) ∧ Binary64.value m e < 2 ^ 64 := by
  unfold ofSeconds? at h
  simp only at h
  split_ifs at h with hneg hlarge
  refine ⟨?_, ?_⟩
  · rw [Bool.and_eq_true, bne_iff_ne] at hneg
    by_cases hm : m = 0
    · exact .inl hm
    · exact .inr (Bool.eq_false_iff.2 fun hn => hneg ⟨hn, hm⟩)
  · rw [← Binary64.ratio_eq_value, div_lt_iff₀ (Nat.cast_pos.2 (Binary64.ratio_pos m e))]
    exact_mod_cast Nat.not_le.1 hlarge

/-- The largest double below `2 ^ 64` is so far below it that no nanosecond is lost to the limit. -/
theorem exists_ofSeconds? (h : Binary64.value m e ≤ Binary64.topWord) :
    ∃ d, ofSeconds? (.finite false m e) = some d := by
  have hden := Binary64.ratio_pos m e
  have hround := (roundDivEven_bounds ((Binary64.ratio m e).1 * perSecond) hden).2
  rw [← Binary64.ratio_eq_value, div_le_iff₀ (Nat.cast_pos.2 hden), Binary64.topWord] at h
  have hle : (Binary64.ratio m e).1 ≤ (2 ^ 64 - 2 ^ 11) * (Binary64.ratio m e).2 := by
    have hcast : ((Binary64.ratio m e).1 : ℚ) ≤
        ((2 ^ 64 - 2 ^ 11 : Nat) * (Binary64.ratio m e).2 : Nat) := by
      rw [Nat.cast_mul]
      exact h.trans_eq (by norm_num)
    exact Nat.cast_le.1 hcast
  have hseconds : (Binary64.ratio m e).1 < wordLimit * (Binary64.ratio m e).2 := by
    unfold wordLimit
    omega
  have hnanos : roundDivEven ((Binary64.ratio m e).1 * perSecond) (Binary64.ratio m e).2 <
      wordLimit * 1000000000 := by
    refine Nat.lt_of_mul_lt_mul_right (a := (Binary64.ratio m e).2) ?_
    unfold perSecond wordLimit at *
    omega
  unfold ofSeconds?
  simp only [Bool.false_and, Bool.false_eq_true, if_false]
  rw [if_neg (Nat.not_le.2 hseconds), ofNanos?, dif_pos hnanos]
  exact ⟨_, rfl⟩

end Duration

namespace Json

variable {α : Type} {ms : List (String × Json)} {key : String}

/-- A field that is there has no need of its default. -/
theorem optional_of_lookup {read : Json → Option α} {j : Json} {a : α} (default : α)
    (h : ms.lookup key = some j) (hread : read (reread j) = some a) :
    optional (rereadMembers ms) key default read = some a := by
  rw [optional, lookup_rereadMembers, h, Option.map_some]
  exact hread

theorem seconds?_reread {d : Duration} (h : d.Exact) : seconds? d.toJson.reread = some d := by
  rw [seconds?, h.text, Option.bind_some, h.seconds]

theorem seconds?_zeros : ∀ neg, seconds? (ofNumber ⟨neg, ['0'], ['0'], none⟩) = some .zero := by
  decide +kernel

/-- **The text of a duration is read** if its number of seconds is a duration, though it may be
another one then. -/
theorem exists_seconds?_reread {d d' : Duration} (h : Duration.ofSeconds? d.toSeconds = some d') :
    ∃ time, seconds? d.toJson.reread = some time := by
  cases hx : d.toSeconds with
  | infinite neg => rw [hx] at h; cases h
  | nan => rw [hx] at h; cases h
  | finite neg m e =>
    rw [hx] at h
    obtain ⟨hneg, hvalue⟩ := Duration.value_lt_of_ofSeconds? h
    rw [Duration.toJson, hx, reread]
    by_cases hm : m = 0
    · rw [Number.ofDouble, if_pos hm]
      exact ⟨.zero, seconds?_zeros neg⟩
    · obtain rfl := hneg.resolve_left hm
      obtain ⟨m', e', hread, hle⟩ :=
        Number.exists_value?_ofDouble hm (Decimal.Binary64.rounded_add hx) hvalue
      rw [ofNumber, hread, Option.getD_some]
      exact Duration.exists_ofSeconds? hle

theorem timestamp?_reread {t : Timestamp} (h : t.Valid) :
    nullable? Timestamp.ofJson? t.toJson.reread = some (some t.toMillis) := by
  have hread : Timestamp.ofJson? (.str t.render) = some t.toMillis := by
    rw [Timestamp.ofJson?, text?, Option.bind_some, Timestamp.read?_render h]
  rw [Timestamp.toJson, reread, nullable?, hread, Option.map_some]
  intro h
  cases h

end Json

/-! ## Cases -/

theorem Case.ofJson?_reread {c : Case} (h : c.time.Exact) : ofJson? c.toJson.reread = some c := by
  have htells := Transcript.tellsCase_reread c
  have htime : Json.optional (Json.rereadMembers (Transcript.caseMembers c)) "time" .zero
      Json.seconds? = some c.time :=
    Json.optional_of_lookup _ rfl (Json.seconds?_reread h)
  rw [ofJson?, Transcript.record?_case]
  simp only [Json.required, htells.name, htime, htells.failure, htells.error, htells.skipped,
    htells.systemOut, Option.bind_eq_bind, Option.bind_some]
  rw [Json.optional, htells.classname]
  rfl

/-! ## Suites -/

/-- The members of a record tell a suite. -/
structure Suite.TellsSuite (r : Json.Members) (s : Suite) : Prop where
  name : Json.required r "name" Json.text? = some s.name
  total : Json.optional r "tests" 0 Json.count? = some s.counts.total
  skipped : Json.optional r "skipped" 0 Json.count? = some s.counts.skipped
  failures : Json.optional r "failures" 0 Json.count? = some s.counts.failures
  errors : Json.optional r "errors" 0 Json.count? = some s.counts.errors
  time : Json.optional r "time" .zero Json.seconds? = some s.time
  timestamp : Json.optional r "timestamp" none (Json.nullable? Timestamp.ofJson?) = some s.timestamp
  cases : Json.optional r "testcase" [] (Json.list? Case.ofJson?) = some s.cases

namespace Suite

theorem ofJson?_of_tells {j : Json} {r : Json.Members} {s : Suite}
    (hrecord : j.record? fields = some r)
    (h : TellsSuite r s) : ofJson? j = some s := by
  rw [ofJson?, hrecord]
  simp only [h.name, h.total, h.skipped, h.failures, h.errors, h.time, h.timestamp, h.cases,
    Option.bind_eq_bind, Option.bind_some]
  rfl

theorem count?_reread {n : Nat} {key : String} {ms : List (String × Json)}
    (h : ms.lookup key = some (.int n))
    (hn : n < countLimit) : Json.optional (Json.rereadMembers ms) key 0 Json.count? = some n :=
  Json.optional_of_lookup 0 h (Transcript.count?_reread hn)

/-- **A suite is read from its own text**, its timestamp in whole milliseconds. -/
theorem ofJson?_reread {s : Suite} (h : s.Portable) :
    ofJson? s.toJson.reread = some s.toMillis := by
  have htimestamp : Json.optional (Json.rereadMembers (Transcript.suiteMembers s)) "timestamp" none
      (Json.nullable? Timestamp.ofJson?) = some (s.timestamp.map Timestamp.toMillis) := by
    rw [Json.optional, Json.lookup_rereadMembers, Transcript.lookup_timestamp]
    cases hstamp : s.timestamp with
    | none => rfl
    | some t => exact Json.timestamp?_reread (h.timestamp t hstamp)
  have hcases : Json.list? Case.ofJson? (Json.reread (.arr (s.cases.map Case.toJson))) =
      some s.cases := by
    rw [Transcript.list?_reread fun c hc => Case.ofJson?_reread (h.caseTimes c hc)]
    exact congrArg some (List.map_id _)
  refine ofJson?_of_tells (Transcript.record?_suite s) ?_
  exact {
    name := Json.required_reread rfl rfl
    total := count?_reread rfl h.counts.total
    skipped := count?_reread rfl h.counts.skipped
    failures := count?_reread rfl h.counts.failures
    errors := count?_reread rfl h.counts.errors
    time := Json.optional_of_lookup _ rfl (Json.seconds?_reread h.time)
    timestamp := htimestamp
    cases := Json.optional_of_lookup _ (Transcript.lookup_testcase s) hcases }

end Suite

/-! ## Reports -/

/-- The members of a report that are fields of a suite. -/
def Report.sharedMembers (r : Report) : List (String × Json) :=
  ("name", .str r.name) :: r.counts.members ++ [("timestamp", r.started.toJson),
    ("time", r.time.toJson)]

theorem Report.record?_suite (r : Report) :
    r.toJson.reread.record? Suite.fields = some (Json.rereadMembers r.sharedMembers) := by
  have hkeys : ((Transcript.reportMembers r).map (·.1)).Nodup := by
    unfold Transcript.reportMembers
    split <;> simp [Counts.members]
  have hshared : (Transcript.reportMembers r).filter (fun m => Suite.fields.contains m.1) =
      r.sharedMembers := by
    unfold Transcript.reportMembers
    split <;> rfl
  rw [← hshared]
  exact Json.record?_reread_filter hkeys

/-- **The text of a report is that of a suite**, one without cases that has the counts of the
report. -/
theorem Report.ofJson?_reread {r : Report} (hcounts : r.counts.Fits)
    (htime : Duration.ofSeconds? r.time.toSeconds = some r.time) (hstarted : r.started.Valid) :
    ∃ time, Suite.ofJson? r.toJson.reread = some (r.condensed time) := by
  obtain ⟨time, hread⟩ := Json.exists_seconds?_reread htime
  refine ⟨time, Suite.ofJson?_of_tells r.record?_suite ?_⟩
  exact {
    name := Json.required_reread rfl rfl
    total := Suite.count?_reread rfl hcounts.total
    skipped := Suite.count?_reread rfl hcounts.skipped
    failures := Suite.count?_reread rfl hcounts.failures
    errors := Suite.count?_reread rfl hcounts.errors
    time := Json.optional_of_lookup _ rfl hread
    timestamp := Json.optional_of_lookup _ rfl (Json.timestamp?_reread hstarted)
    cases := rfl }

end TestOrchestrator
