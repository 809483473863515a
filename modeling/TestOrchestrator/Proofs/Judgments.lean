import TestOrchestrator.Proofs.Printouts
/-!
# What the output of a program comes to

* `Prints bs s` says that bytes are the text of a suite in JSON, with blanks around it at most.
  `Output.printed?_eq_some_iff`: just these are read as a suite.
* `Says bs said` says what is left of the text of bytes without the blanks around it.
* `Suite.muted s` is a suite without what a program said. `Judged` says what a suite of one case
  tells of an output.
* `programEngine_call_of_output`: a program that prints a suite gives that suite, and any other
  program one case that goes by its ending.
-/

namespace TestOrchestrator

open Text

variable {o : Output} {s : Suite}

/-! ## Suites on the standard output -/

/-- Bytes are the text of a suite in JSON: they are UTF-8, and without the blanks around it their
text begins with a brace and is read as the suite. -/
def Prints (bs : List UInt8) (s : Suite) : Prop :=
  ∃ cs text j, bs = Utf8.encode cs ∧ Trims cs text ∧ text.head? = some '\x7b' ∧
    Json.read? (Utf8.encode text) = some j ∧ Suite.ofJson? j = some s

namespace Output

theorem candidate?_eq_some_iff {text : List Char} : o.candidate? = some text ↔
    ∃ cs, o.stdout = Utf8.encode cs ∧ Trims cs text ∧ text.head? = some '\x7b' := by
  rw [candidate?]
  cases hdecode : Utf8.decode? o.stdout with
  | none =>
    refine iff_of_false (Option.some_ne_none text).symm ?_
    rintro ⟨cs, hcs, -⟩
    rw [Utf8.decode?_eq_some_iff.2 hcs] at hdecode
    cases hdecode
  | some cs =>
    have hcs : o.stdout = Utf8.encode cs := Utf8.decode?_eq_some_iff.1 hdecode
    show (if (trim cs).head? = some '\x7b' then some (trim cs) else none) = some text ↔ _
    rw [Option.ite_none_right_eq_some, Option.some.injEq]
    constructor
    · rintro ⟨hbrace, rfl⟩
      exact ⟨cs, hcs, trims_trim cs, hbrace⟩
    · rintro ⟨cs', hcs', htrims, hbrace⟩
      obtain rfl := Option.some.inj (hdecode.symm.trans (Utf8.decode?_eq_some_iff.2 hcs'))
      rw [htrims.trim_eq]
      exact ⟨hbrace, rfl⟩

/-- **Just the text of a suite is read as a suite.** -/
theorem printed?_eq_some_iff : o.printed? = some s ↔ Prints o.stdout s := by
  simp only [printed?, Option.bind_eq_bind, Option.bind_eq_some_iff, candidate?_eq_some_iff]
  constructor
  · rintro ⟨text, ⟨cs, hcs, htrims, hbrace⟩, j, hread, hsuite⟩
    exact ⟨cs, text, j, hcs, htrims, hbrace, hread, hsuite⟩
  · rintro ⟨cs, text, j, hcs, htrims, hbrace, hread, hsuite⟩
    exact ⟨text, ⟨cs, hcs, htrims, hbrace⟩, j, hread, hsuite⟩

theorem printed?_eq_none_iff : o.printed? = none ↔ ∀ s, ¬Prints o.stdout s := by
  rw [Option.eq_none_iff_forall_ne_some]
  exact forall_congr' fun s => not_congr printed?_eq_some_iff

end Output

/-! ## What programs say -/

/-- What bytes say: their text without the blanks around it, if anything is left. -/
def Says (bs : List UInt8) (said : Option String) : Prop :=
  ∃ text, Trims (Utf8.decodeLossy bs) text ∧
    said = if text = [] then none else some (String.ofList text)

theorem says_said? (bs : List UInt8) : Says bs (Output.said? bs) := by
  refine ⟨_, trims_trim _, ?_⟩
  rw [Output.said?]
  cases trim (Utf8.decodeLossy bs) <;> rfl

/-- A note without its detail. -/
def Note.brief (n : Note) : Note := { n with detail := none }

/-- A case without what was said about it, but for the messages. -/
def Case.muted (c : Case) : Case :=
  { c with
    failure := c.failure.map Note.brief
    error := c.error.map Note.brief
    skipped := c.skipped.map Note.brief
    systemOut := none }

/-- A suite without what was said about its cases. -/
def Suite.muted (s : Suite) : Suite := { s with cases := s.cases.map Case.muted }

/-! ## Verdicts -/

/-- A suite has one case that goes by how a program ended. All that it has from what the program
said is the output of the case and the detail of its failure or error. -/
structure Judged (now : Timestamp) (name : String) (elapsed : Duration) (o : Output) (s : Suite)
    (c : Case) : Prop where
  cases : s.cases = [c]
  names : s.name = name ∧ c.name = name
  total : s.counts.total = 1
  pass : c.status = .pass ∧ s.counts = ⟨1, 0, 0, 0⟩ ↔ o.ending = .exited 0
  fail : c.status = .fail ∧ s.counts = ⟨1, 0, 1, 0⟩ ↔ ∃ status, status ≠ 0 ∧
    o.ending = .exited status
  error : c.status = .error ∧ s.counts = ⟨1, 0, 0, 1⟩ ↔ o.ending = .killed
  out : Says o.stdout c.systemOut
  detail : ∀ note, c.failure = some note ∨ c.error = some note → Says o.stderr note.detail
  /-- All else is as if the program had said nothing. -/
  muted : s.muted = Output.toSuite now name elapsed ⟨[], [], o.ending⟩

/-- The status that an ending stands for. -/
def Ending.status : Ending → Status
  | .exited 0 => .pass
  | .exited _ => .fail
  | .killed => .error

namespace Ending

variable {e : Ending}

theorem status_eq_pass_iff : e.status = .pass ↔ e = .exited 0 := by
  rcases e with ⟨_ | n⟩ | - <;> simp [status]

theorem status_eq_fail_iff : e.status = .fail ↔ ∃ n, n ≠ 0 ∧ e = .exited n := by
  rcases e with ⟨_ | n⟩ | - <;> simp [status]

theorem status_eq_error_iff : e.status = .error ↔ e = .killed := by
  rcases e with ⟨_ | n⟩ | - <;> simp [status]

end Ending

namespace Output

variable (now : Timestamp) (name : String) (elapsed : Duration)

theorem status_verdict (o : Output) : (o.verdict name elapsed).status = o.ending.status := by
  obtain ⟨stdout, stderr, ⟨_ | n⟩ | -⟩ := o <;> rfl

theorem muted_verdict (o : Output) :
    (o.verdict name elapsed).muted = verdict name elapsed ⟨[], [], o.ending⟩ := by
  obtain ⟨stdout, stderr, ⟨_ | n⟩ | -⟩ := o <;> rfl

theorem detail_verdict (o : Output) {note : Note}
    (h : (o.verdict name elapsed).failure = some note ∨
      (o.verdict name elapsed).error = some note) :
    note.detail = said? o.stderr := by
  obtain ⟨stdout, stderr, ⟨_ | n⟩ | -⟩ := o <;> rcases h with h | h <;> cases h <;> rfl

theorem systemOut_verdict (o : Output) : (o.verdict name elapsed).systemOut = said? o.stdout := by
  obtain ⟨stdout, stderr, ⟨_ | n⟩ | -⟩ := o <;> rfl

theorem toSuite_eq_of_printed?_eq_none {o : Output} (h : o.printed? = none) :
    o.toSuite now name elapsed =
      { name
        counts := ({} : Counts).count o.ending.status
        time := Duration.zero.add elapsed
        timestamp := some now
        cases := [o.verdict name elapsed] } := by
  rw [toSuite, h, ← status_verdict name elapsed o]
  obtain ⟨stdout, stderr, ⟨_ | n⟩ | -⟩ := o <;> rfl

/-- **An output that is no suite is judged by its ending.** -/
theorem judged_of_printed?_eq_none {o : Output} (h : o.printed? = none) :
    Judged now name elapsed o (o.toSuite now name elapsed) (o.verdict name elapsed) := by
  have hstatus := status_verdict name elapsed o
  have hsilent : printed? ⟨[], [], o.ending⟩ = none := rfl
  rw [toSuite_eq_of_printed?_eq_none now name elapsed h]
  have hcase : ∀ status : Status, ((o.verdict name elapsed).status = status ∧
      ({} : Counts).count o.ending.status = ({} : Counts).count status) ↔
        o.ending.status = status := by
    intro status
    rw [hstatus]
    exact ⟨And.left, fun h => ⟨h, congrArg _ h⟩⟩
  exact {
    cases := rfl
    names := ⟨rfl, by obtain ⟨stdout, stderr, ⟨_ | n⟩ | -⟩ := o <;> rfl⟩
    total := by cases o.ending.status <;> rfl
    pass := (hcase .pass).trans Ending.status_eq_pass_iff
    fail := (hcase .fail).trans Ending.status_eq_fail_iff
    error := (hcase .error).trans Ending.status_eq_error_iff
    out := systemOut_verdict name elapsed o ▸ says_said? o.stdout
    detail := fun note hnote => detail_verdict name elapsed o hnote ▸ says_said? o.stderr
    muted := by
      rw [toSuite_eq_of_printed?_eq_none now name elapsed hsilent, Suite.muted, List.map_singleton,
        muted_verdict] }

theorem adopt_eq (s : Suite) : adopt name elapsed s = { s with
    name := if s.name = "" then name else s.name
    time := if s.time.isZero then elapsed else s.time } := by
  rw [adopt, Suite.orNamed]
  by_cases hname : s.name = "" <;> cases htime : s.time.isZero <;> simp [hname, htime]

end Output

/-! ## Calls of programs -/

variable {σ : Type} {l : Launcher σ} {now : Timestamp} {outer : Table OsText}
  {interpreter : Option Path}
  {i : Invocation} {session : Session σ} {state : σ} {elapsed : Duration}

/-- **What a program that was started comes to.** If it prints a suite, the answer is that suite,
whatever else it says and however it ends; only an empty name and a time of zero are replaced.
Otherwise the answer is a suite of one case that goes by how the program ended, whatever it said. -/
theorem programEngine_call_of_output
    (hlaunch : l.launch (.of outer interpreter session.context i) session.state =
      (.ok ⟨o, elapsed⟩, state)) :
    (∀ s, Prints o.stdout s → (programEngine l now outer interpreter).call i session =
      (.ok { s with
        name := if s.name = "" then i.name else s.name
        time := if s.time.isZero then elapsed else s.time }, ⟨session.context, state⟩)) ∧
    ((∀ s, ¬Prints o.stdout s) → ∃ s c, (programEngine l now outer interpreter).call i session =
      (.ok s, ⟨session.context, state⟩) ∧ Judged now i.name elapsed o s c) := by
  constructor
  · intro s hprints
    rw [programEngine_call_of_printed (Output.printed?_eq_some_iff.2 hprints) hlaunch,
      Output.adopt_eq]
  · intro hnone
    have hprinted : o.printed? = none := Output.printed?_eq_none_iff.2 hnone
    refine ⟨_, _, ?_, Output.judged_of_printed?_eq_none now i.name elapsed hprinted⟩
    simp only [programEngine, hlaunch]

/-- A program that fails and prints a suite whose time is no duration. -/
theorem programEngine_call_of_endless :
    let bs := Utf8.encode "\x7b\"name\":\"x\",\"tests\":1,\"time\":1e30\x7d\n".toList
    (printing bs).launch (.of .empty none atStart.context ping) atStart.state =
        (.ok ⟨⟨bs, [0x21], .exited 3⟩, .millisecond⟩, ()) ∧ (∀ s, ¬Prints bs s) ∧
      ∃ s c, (programEngine (printing bs) ⟨2024, 3, 1, 0, 0, 0, 0⟩ .empty none).call ping atStart =
        (.ok s, atStart) ∧
        s.cases = [c] ∧ c.status = .fail ∧ s.counts = ⟨1, 0, 1, 0⟩ := by
  intro bs
  have hlaunch : (printing bs).launch (.of .empty none atStart.context ping) atStart.state =
      (.ok ⟨⟨bs, [0x21], .exited 3⟩, .millisecond⟩, ()) := rfl
  have hnone : ∀ s, ¬Prints bs s :=
    (Output.printed?_eq_none_iff (o := ⟨bs, [0x21], .exited 3⟩)).1 (by decide +kernel)
  obtain ⟨s, c, hcall, hjudged⟩ : ∃ s c,
      (programEngine (printing bs) ⟨2024, 3, 1, 0, 0, 0, 0⟩ .empty none).call ping atStart =
        (.ok s, atStart) ∧
        Judged ⟨2024, 3, 1, 0, 0, 0, 0⟩ "ping" .millisecond ⟨bs, [0x21], .exited 3⟩ s c :=
    (programEngine_call_of_output hlaunch).2 hnone
  obtain ⟨hstatus, hcounts⟩ := hjudged.fail.2 ⟨3, by decide, rfl⟩
  exact ⟨hlaunch, hnone, s, c, hcall, hjudged.cases, hstatus, hcounts⟩

end TestOrchestrator
