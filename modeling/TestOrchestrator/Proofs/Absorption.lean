import TestOrchestrator.Proofs.Losses
/-!
# Suites merged into another one

A suite takes in other suites, one after another. Some of them may be too large for it, which does
not keep it from taking in those behind them.

* `Suite.Overflows s r` says that some sum of two suites has no room; just then `Suite.absorb?` has
  no result.
* `Suite.takeIn r` is the merge of one suite in place, part by part. What is changed before a
  refusal stays changed; that nothing is, since all sums are made before the first change, is
  `Suite.run_takeIn`.
* `Suite.takeInAll rs` merges some suites in order.
* `Suite.after_accounts`: after any such history the suite is what it was and the suites that were
  not refused.
-/

namespace TestOrchestrator

/-! ## Sums of durations -/

namespace Duration

/-- The sum of two durations by their whole seconds and the rests, of which a full second is
carried. -/
def addCarrying? (d e : Duration) : Option Duration := do
  let seconds ← addCounts? (d.nanos / perSecond) (e.nanos / perSecond)
  let rest := d.nanos % perSecond + e.nanos % perSecond
  if rest < perSecond then ofNanos? (seconds * perSecond + rest)
  else
    let seconds ← addCounts? seconds 1
    ofNanos? (seconds * perSecond + (rest - perSecond))

theorem addCarrying?_eq_some_iff {d e sum : Duration} :
    d.addCarrying? e = some sum ↔ sum.nanos = d.nanos + e.nanos := by
  have hsum := sum.lt
  by_cases hrest : d.nanos % perSecond + e.nanos % perSecond < perSecond
  · simp only [addCarrying?, Option.bind_eq_bind, Option.bind_eq_some_iff, addCounts?_eq_some_iff,
      if_pos hrest, ofNanos?_eq_some_iff]
    unfold perSecond countLimit at *
    constructor
    · rintro ⟨_, ⟨-, rfl⟩, hnanos⟩
      omega
    · intro hnanos
      exact ⟨_, ⟨by omega, rfl⟩, by omega⟩
  · simp only [addCarrying?, Option.bind_eq_bind, Option.bind_eq_some_iff, addCounts?_eq_some_iff,
      if_neg hrest, ofNanos?_eq_some_iff]
    unfold perSecond countLimit at *
    constructor
    · rintro ⟨_, ⟨-, rfl⟩, _, ⟨-, rfl⟩, hnanos⟩
      omega
    · intro hnanos
      exact ⟨_, ⟨by omega, rfl⟩, _, ⟨by omega, rfl⟩, by omega⟩

/-- A carried second makes no difference. -/
theorem addCarrying?_eq (d e : Duration) : d.addCarrying? e = d.add? e :=
  Option.ext fun _ => addCarrying?_eq_some_iff.trans add?_eq_some_iff.symm

end Duration

namespace Suite

/-! ## One merge -/

/-- A count of both suites would be above the largest word, or their time longer than the longest
duration. -/
def Overflows (s r : Suite) : Prop :=
  2 ^ 64 - 1 < s.counts.total + r.counts.total ∨ 2 ^ 64 - 1 < s.counts.skipped + r.counts.skipped ∨
    2 ^ 64 - 1 < s.counts.failures + r.counts.failures ∨
      2 ^ 64 - 1 < s.counts.errors + r.counts.errors ∨
    Duration.longest.nanos < s.time.nanos + r.time.nanos

variable {s r : Suite}

theorem absorb?_eq_none_iff : s.absorb? r = none ↔ s.Overflows r := by
  have hfits : (s.counts.add r.counts).Fits ↔
      s.counts.total + r.counts.total < 2 ^ 64 ∧ s.counts.skipped + r.counts.skipped < 2 ^ 64 ∧
        s.counts.failures + r.counts.failures < 2 ^ 64 ∧
          s.counts.errors + r.counts.errors < 2 ^ 64 :=
    ⟨fun ⟨ht, hs, hf, he⟩ => ⟨ht, hs, hf, he⟩, fun ⟨ht, hs, hf, he⟩ => ⟨ht, hs, hf, he⟩⟩
  have hlongest : Duration.longest.nanos + 1 = Duration.limit := rfl
  rw [← Option.not_isSome_iff_eq_none, absorb?_isSome_iff, hfits, Overflows]
  omega

/-- The suite that was refused. -/
structure CountOverflow where
  suite : String
  deriving DecidableEq

/-- Changes of a suite in place. A refusal leaves the changes that were made before it. -/
abbrev Changing := ExceptT CountOverflow (StateM Suite)

/-- A sum, unless it has no room for the part of a suite. -/
def sumWith {α : Type} (r : Suite) (sum : Suite → Option α) : Changing α := do
  match sum (← get) with
  | some a => return a
  | none => throw ⟨r.name⟩

/-- Merges a suite into the one at hand, part by part. -/
def takeIn (r : Suite) : Changing Unit := do
  let total ← sumWith r fun s => addCounts? s.counts.total r.counts.total
  let skipped ← sumWith r fun s => addCounts? s.counts.skipped r.counts.skipped
  let failures ← sumWith r fun s => addCounts? s.counts.failures r.counts.failures
  let errors ← sumWith r fun s => addCounts? s.counts.errors r.counts.errors
  let time ← sumWith r fun s => s.time.addCarrying? r.time
  modify fun s => { s with counts := { s.counts with total } }
  modify fun s => { s with counts := { s.counts with skipped } }
  modify fun s => { s with counts := { s.counts with failures } }
  modify fun s => { s with counts := { s.counts with errors } }
  modify fun s => { s with time }
  modify fun s => { s with cases := s.cases ++ r.cases.map (Case.inClass r.name) }

theorem run_sumWith_bind {α : Type} (sum : Suite → Option α) (f : α → Changing Unit) (s : Suite) :
    (sumWith r sum >>= f).run.run s =
      match sum s with
      | some a => (f a).run.run s
      | none => (.error ⟨r.name⟩, s) := by
  show ((match sum s with
    | some a => pure a
    | none => throw ⟨r.name⟩) >>= f : Changing Unit).run.run s = _
  cases sum s <;> rfl

/-- **A merge in place changes all parts of a suite or none.** -/
theorem run_takeIn (r s : Suite) :
    (takeIn r).run.run s =
      match s.absorb? r with
      | some s' => (.ok (), s')
      | none => (.error ⟨r.name⟩, s) := by
  rw [takeIn]
  simp only [run_sumWith_bind, Duration.addCarrying?_eq, absorb?, Counts.add?]
  cases addCounts? s.counts.total r.counts.total with
  | none => rfl
  | some total =>
    cases addCounts? s.counts.skipped r.counts.skipped with
    | none => rfl
    | some skipped =>
      cases addCounts? s.counts.failures r.counts.failures with
      | none => rfl
      | some failures =>
        cases addCounts? s.counts.errors r.counts.errors with
        | none => rfl
        | some errors => cases s.time.add? r.time <;> rfl

/-! ## Some merges in order -/

/-- Merges suites in order, with the answer to each. -/
def takeInAll (rs : List Suite) : StateM Suite (List (Except CountOverflow Unit)) :=
  rs.mapM fun r => (takeIn r).run

/-- The suites whose merge was not refused. -/
def accepted (rs : List Suite) (answers : List (Except CountOverflow Unit)) : List Suite :=
  ((rs.zip answers).filter (·.2.isOk)).map Prod.fst

theorem accepted_cons_ok (r : Suite) (rs : List Suite)
    (answers : List (Except CountOverflow Unit)) :
    accepted (r :: rs) (.ok () :: answers) = r :: accepted rs answers := rfl

/-- The answers to some merges in order. -/
def answers (s : Suite) (rs : List Suite) : List (Except CountOverflow Unit) :=
  ((takeInAll rs).run s).1

/-- A suite after some merges in order. -/
def after (s : Suite) (rs : List Suite) : Suite := ((takeInAll rs).run s).2

theorem run_takeInAll_cons (r : Suite) (rs : List Suite) (s : Suite) :
    (takeInAll (r :: rs)).run s =
      (((takeIn r).run.run s).1 :: answers ((takeIn r).run.run s).2 rs,
        after ((takeIn r).run.run s).2 rs) := by
  rw [takeInAll, List.mapM_cons]
  rfl

theorem answers_cons (s r : Suite) (rs : List Suite) :
    s.answers (r :: rs) = ((takeIn r).run.run s).1 :: answers ((takeIn r).run.run s).2 rs := by
  rw [answers, run_takeInAll_cons]

theorem after_cons (s r : Suite) (rs : List Suite) :
    s.after (r :: rs) = after ((takeIn r).run.run s).2 rs := by
  rw [after, run_takeInAll_cons]

theorem length_answers (s : Suite) (rs : List Suite) : (s.answers rs).length = rs.length := by
  induction rs generalizing s with
  | nil => rfl
  | cons r rs ih => rw [answers_cons, List.length_cons, List.length_cons, ih]

/-- A history can be cut anywhere. -/
theorem answers_append (s : Suite) (rs rs' : List Suite) :
    s.answers (rs ++ rs') = s.answers rs ++ (s.after rs).answers rs' := by
  induction rs generalizing s with
  | nil => rfl
  | cons r rs ih =>
    rw [List.cons_append, answers_cons, answers_cons, after_cons, ih, List.cons_append]

theorem after_append (s : Suite) (rs rs' : List Suite) :
    s.after (rs ++ rs') = (s.after rs).after rs' := by
  induction rs generalizing s with
  | nil => rfl
  | cons r rs ih => rw [List.cons_append, after_cons, after_cons, ih]

/-- One merge of a history: its answer, and what it leaves. -/
theorem answers_at (s : Suite) (before later : List Suite) (r : Suite) :
    (s.answers (before ++ r :: later))[before.length]? =
      some ((takeIn r).run.run (s.after before)).1 ∧
      s.after (before ++ [r]) = ((takeIn r).run.run (s.after before)).2 := by
  have hlength := s.length_answers before
  refine ⟨?_, ?_⟩
  · rw [answers_append, answers_cons, ← hlength]
    simp
  · rw [after_append, after_cons]
    rfl

/-- The suites that were not refused are in the suite after a history, and nothing else is new
there. -/
theorem after_eq (s : Suite) (rs : List Suite) :
    (s.after rs).time.nanos = s.time.nanos + totalNanos (accepted rs (s.answers rs)) ∧
      s.after rs = { s with
        counts := s.counts.add (totalCounts (accepted rs (s.answers rs)))
        time := (s.after rs).time
        cases := s.cases ++ (accepted rs (s.answers rs)).flatMap fun r =>
          r.cases.map (Case.inClass r.name) } := by
  induction rs generalizing s with
  | nil =>
    have hcases : s.cases ++ [] = s.cases := List.append_nil _
    refine ⟨rfl, ?_⟩
    show s = { s with counts := s.counts, time := s.time, cases := s.cases ++ [] }
    rw [hcases]
  | cons r rs ih =>
    rw [answers_cons, after_cons, run_takeIn]
    cases ha : s.absorb? r with
    | none => exact ih s
    | some t =>
      obtain ⟨-, htime, ht⟩ := absorb?_eq_some_iff.1 ha
      obtain ⟨ihtime, iheq⟩ := ih t
      dsimp only
      rw [accepted_cons_ok]
      generalize accepted rs (t.answers rs) = kept at ihtime iheq ⊢
      refine ⟨?_, ?_⟩
      · rw [ihtime, htime, Nat.add_assoc]
        rfl
      · rw [totalCounts_cons, ← Counts.add_assoc, List.flatMap_cons, ← List.append_assoc, iheq, ht]

/-- **Suites merged into another one.** A merge is refused just when some sum has no room, with the
name of the suite that was to be merged, and a refused merge changes nothing. After all merges the
suite is what it was, but for the counts and the time, which are the old ones and the sums of those
of the suites that were not refused, and for the cases of these suites, which stand behind the old
ones in order, each with the name of its suite for a class if it named none. -/
theorem after_accounts (s : Suite) (rs : List Suite) :
    (s.answers rs).length = rs.length ∧
    (∀ before r later, rs = before ++ r :: later →
      let t := s.after before
      let t' := s.after (before ++ [r])
      ((s.answers rs)[before.length]? = some (.error ⟨r.name⟩) ↔ t.Overflows r) ∧
      ((s.answers rs)[before.length]? = some (.ok ()) ↔ ¬t.Overflows r) ∧
      (t.Overflows r → t' = t) ∧ (¬t.Overflows r → t.absorb? r = some t')) ∧
    let kept := accepted rs (s.answers rs)
    (s.after rs).time.nanos = s.time.nanos + totalNanos kept ∧
    s.after rs = { s with
      counts := s.counts.add (totalCounts kept)
      time := (s.after rs).time
      cases := s.cases ++ kept.flatMap fun r => r.cases.map (Case.inClass r.name) } := by
  refine ⟨s.length_answers rs, ?_, s.after_eq rs⟩
  rintro before r later rfl
  obtain ⟨hanswer, hafter⟩ := s.answers_at before later r
  rw [hanswer, hafter]
  generalize s.after before = t
  by_cases h : t.Overflows r
  · rw [run_takeIn, absorb?_eq_none_iff.2 h]
    simp [h]
  · obtain ⟨t', ht'⟩ := Option.ne_none_iff_exists'.1 (absorb?_eq_none_iff.not.2 h)
    rw [run_takeIn, ht']
    simp [h, ht']

/-- A suite that is too large does not keep the next one out. -/
example : Suite.answers { name := "basic", counts := ⟨1, 0, 0, 0⟩ }
    [{ name := "flood", counts := ⟨2 ^ 64 - 1, 0, 0, 0⟩ },
      { name := "pong", counts := ⟨2, 0, 1, 0⟩ }] =
      [.error ⟨"flood"⟩, .ok ()] := by decide +kernel

end Suite

end TestOrchestrator
