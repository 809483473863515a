import TestOrchestrator.Decimal.Power
import TestOrchestrator.Time.Duration
import TestOrchestrator.Time.Timestamp
/-!
# Suites

A suite is the result of running a test: counts, a time and the cases that were listed.

* `Case.status` is the status of a case: an error wins over a failure, a failure over a skip.
* `Suite.push` appends a case and counts it; `Suite.ofCases` builds a suite from cases alone.
* `Suite.absorb?` merges another suite's counts and cases as they were reported. It fails, and
  merges nothing, just when a count would reach `countLimit` or the time the longest duration
  (`absorb?_isSome_iff`).
* `Suite.passed` is what is left of the total, and never less than 0.
-/

namespace TestOrchestrator

/-! ## Cases -/

/-- The status of a case. -/
inductive Status where
  | pass
  | fail
  | skip
  | error
  deriving DecidableEq, Repr

namespace Status

/-- The word for a status. -/
def word : Status → String
  | pass => "PASS"
  | fail => "FAIL"
  | skip => "SKIP"
  | error => "ERROR"

/-- The mark before a case of that status. -/
def symbol : Status → String
  | pass => "✓"
  | fail => "✗"
  | skip => "○"
  | error => "!"

end Status

/-- What is said about a case that failed, erred or was skipped. -/
structure Note where
  message : String
  detail : Option String := none
  deriving DecidableEq

/-- A test case. -/
structure Case where
  name : String
  classname : String := ""
  time : Duration := .zero
  failure : Option Note := none
  error : Option Note := none
  skipped : Option Note := none
  systemOut : Option String := none
  deriving DecidableEq

namespace Case

/-- An error wins over a failure, a failure over a skip. -/
def status (c : Case) : Status :=
  if c.error.isSome then .error
  else if c.failure.isSome then .fail
  else if c.skipped.isSome then .skip
  else .pass

/-- One line about a case. -/
def describe (c : Case) : String :=
  c.status.symbol ++ " " ++ c.name ++ " [" ++ toString c.time.wholeMillis ++ "ms]"

/-- The case with its class named, if it names none itself. -/
def inClass (name : String) (c : Case) : Case :=
  if c.classname = "" then { c with classname := name } else c

end Case

/-! ## Suites -/

/-- The number above every count that can be reported. -/
def countLimit : Nat := wordLimit

/-- The sum of two counts, if it is below the limit. -/
def addCounts? (m n : Nat) : Option Nat := if m + n < countLimit then some (m + n) else none

theorem addCounts?_eq_some_iff {m n k : Nat} :
    addCounts? m n = some k ↔ m + n < countLimit ∧ m + n = k := by
  rw [addCounts?, Option.ite_none_right_eq_some, Option.some.injEq]

/-- The counts of a suite or a report. -/
structure Counts where
  total : Nat := 0
  skipped : Nat := 0
  failures : Nat := 0
  errors : Nat := 0
  deriving DecidableEq

namespace Counts

/-- The sums of the counts, if all are below the limit. -/
def add? (c d : Counts) : Option Counts := do
  let total ← addCounts? c.total d.total
  let skipped ← addCounts? c.skipped d.skipped
  let failures ← addCounts? c.failures d.failures
  let errors ← addCounts? c.errors d.errors
  return ⟨total, skipped, failures, errors⟩

/-- The sums of the counts. -/
def add (c d : Counts) : Counts :=
  ⟨c.total + d.total, c.skipped + d.skipped, c.failures + d.failures, c.errors + d.errors⟩

/-- All counts are below the limit. -/
structure Fits (c : Counts) : Prop where
  total : c.total < countLimit
  skipped : c.skipped < countLimit
  failures : c.failures < countLimit
  errors : c.errors < countLimit

theorem add?_eq_some_iff {c d e : Counts} : c.add? d = some e ↔ (c.add d).Fits ∧ c.add d = e := by
  simp only [add?, Option.bind_eq_bind, Option.bind_eq_some_iff, addCounts?_eq_some_iff, pure,
    Option.some.injEq]
  constructor
  · rintro ⟨_, ⟨ht, rfl⟩, _, ⟨hs, rfl⟩, _, ⟨hf, rfl⟩, _, ⟨he, rfl⟩, rfl⟩
    exact ⟨⟨ht, hs, hf, he⟩, rfl⟩
  · rintro ⟨⟨ht, hs, hf, he⟩, rfl⟩
    exact ⟨_, ⟨ht, rfl⟩, _, ⟨hs, rfl⟩, _, ⟨hf, rfl⟩, _, ⟨he, rfl⟩, rfl⟩

/-- One more case of a status. -/
def count (c : Counts) : Status → Counts
  | .pass => { c with total := c.total + 1 }
  | .fail => { c with total := c.total + 1, failures := c.failures + 1 }
  | .skip => { c with total := c.total + 1, skipped := c.skipped + 1 }
  | .error => { c with total := c.total + 1, errors := c.errors + 1 }

/-- What is left of the total. -/
def passed (c : Counts) : Nat := c.total - c.skipped - c.failures - c.errors

end Counts

/-- The result of running a test. -/
structure Suite where
  name : String
  counts : Counts := {}
  time : Duration := .zero
  timestamp : Option Timestamp := none
  cases : List Case := []
  deriving DecidableEq

namespace Suite

/-- The empty suite, begun `now`. -/
def empty (now : Timestamp) (name : String) : Suite := { name, timestamp := some now }

/-- Appends a case and counts it. The time of the suite must stay a duration: where it would not,
the program ends with an overflow, and the longest duration stands for the sum (`Duration.add`). -/
def push (s : Suite) (c : Case) : Suite :=
  { s with
    counts := s.counts.count c.status
    time := s.time.add c.time
    cases := s.cases ++ [c] }

/-- The suite of some cases, begun `now`. -/
def ofCases (now : Timestamp) (name : String) (cases : List Case) : Suite :=
  cases.foldl push (empty now name)

/-- Merges a suite's counts, time and cases as they were reported. A case without a class gets the
name of its suite. -/
def absorb? (s other : Suite) : Option Suite := do
  let counts ← s.counts.add? other.counts
  let time ← s.time.add? other.time
  return { s with counts, time, cases := s.cases ++ other.cases.map (Case.inClass other.name) }

theorem absorb?_eq_some_iff {s r s' : Suite} :
    s.absorb? r = some s' ↔
      (s.counts.add r.counts).Fits ∧ s'.time.nanos = s.time.nanos + r.time.nanos ∧
        s' = { s with
          counts := s.counts.add r.counts
          time := s'.time
          cases := s.cases ++ r.cases.map (Case.inClass r.name) } := by
  simp only [absorb?, Option.bind_eq_bind, Option.bind_eq_some_iff, Counts.add?_eq_some_iff,
    Duration.add?_eq_some_iff, pure, Option.some.injEq]
  constructor
  · rintro ⟨_, ⟨hfits, rfl⟩, time, htime, rfl⟩
    exact ⟨hfits, htime, rfl⟩
  · rintro ⟨hfits, htime, hs⟩
    exact ⟨_, ⟨hfits, rfl⟩, s'.time, htime, hs.symm⟩

theorem absorb?_isSome_iff {s r : Suite} :
    (s.absorb? r).isSome ↔
      (s.counts.add r.counts).Fits ∧ s.time.nanos + r.time.nanos < Duration.limit := by
  constructor
  · intro h
    obtain ⟨s', hs'⟩ := Option.isSome_iff_exists.1 h
    obtain ⟨hfits, htime, -⟩ := absorb?_eq_some_iff.1 hs'
    exact ⟨hfits, htime ▸ s'.time.lt⟩
  · rintro ⟨hfits, htime⟩
    refine Option.isSome_iff_exists.2 ⟨{ s with
      counts := s.counts.add r.counts
      time := ⟨s.time.nanos + r.time.nanos, htime⟩
      cases := s.cases ++ r.cases.map (Case.inClass r.name) }, ?_⟩
    exact absorb?_eq_some_iff.2 ⟨hfits, rfl, rfl⟩

/-- What is left of the total. -/
def passed (s : Suite) : Nat := s.counts.passed

/-- The suite under the given name, if it has none. -/
def orNamed (name : String) (s : Suite) : Suite := if s.name = "" then { s with name } else s

/-- One line about a suite. -/
def describe (s : Suite) : String :=
  s.name ++ ": Total: " ++ toString s.counts.total ++ " | Pass: " ++ toString s.passed ++
    " | Fail: " ++ toString s.counts.failures ++ " | Skip: " ++ toString s.counts.skipped ++
    " | Error: " ++ toString s.counts.errors

/-- What is said when a suite's counts do not fit. -/
def overflowMessage (name : String) : String :=
  "counts reported by suite '" ++ name ++ "' overflow the totals"

end Suite

end TestOrchestrator
