import TestOrchestrator.Proofs.Blanks
import TestOrchestrator.Proofs.Decoding
import TestOrchestrator.Proofs.Losses
import TestOrchestrator.Proofs.ReadBack.Encoding
import TestOrchestrator.Program.Command
/-!
# Suites that programs print

* `Json.Shows bs j` says that bytes are the text of a value, on one line or on many, with blanks
  around it.
* `Output.printed?_of_shows`: what is read from the output of a program that prints an object is
  what is read from the object, whatever else the program says and however it ends.
* `programEngine_call_of_suite`: a program that prints a suite gives that suite, its timestamp in
  whole milliseconds.
* `programEngine_call_of_report`: a program that prints the report of a run gives a suite with the
  counts of the report.
-/

namespace TestOrchestrator

open Text

variable {stdout stderr : List UInt8} {ending : Ending}

namespace Json

/-- Bytes are the text of a value, on one line or on many, with blanks around it. -/
def Shows (bs : List UInt8) (j : Json) : Prop :=
  ∃ (before after : List Char) (text : String), (before ++ after).all isBlank = true ∧
    (text = j.render ∨ text = j.pretty) ∧ bs = Utf8.encode (before ++ text.toList ++ after)

variable {j : Json} {ms : List (String × Json)}

theorem Spacing.exists_braces (s : Spacing) (write : Json → List Char) (name : String) (j : Json)
    (ms : List (String × Json)) : ∃ cs, s.object write name j ms = '\x7b' :: cs ++ ['\x7d'] :=
  ⟨s.item ++ quote name ++ ':' :: s.value ++ write j ++ s.moreMembers write ms ++ s.close, rfl⟩

/-- The text of an object is between braces. -/
theorem exists_braces (hms : ms ≠ []) {text : String}
    (h : text = (obj ms).render ∨ text = (obj ms).pretty) :
    ∃ cs, text.toList = '\x7b' :: cs ++ ['\x7d'] := by
  obtain ⟨⟨name, j⟩, ms, rfl⟩ := List.exists_cons_of_ne_nil hms
  rcases h with rfl | rfl
  · rw [render, String.toList_ofList, renderChars_obj]
    exact Spacing.none.exists_braces _ _ _ _
  · rw [pretty, String.toList_ofList, prettyChars_obj]
    exact (Spacing.pretty 0).exists_braces _ _ _ _

theorem read?_text {text : String} (h : text = j.render ∨ text = j.pretty) :
    read? (Utf8.encode text.toList) = some j.reread := by
  rcases h with rfl | rfl
  · exact read?_render j
  · exact read?_pretty j

end Json

/-- **What a program prints in JSON is read**, whatever else it says and however it ends. -/
theorem Output.printed?_of_shows {ms : List (String × Json)} (hms : ms ≠ [])
    (h : Json.Shows stdout (.obj ms)) :
    printed? ⟨stdout, stderr, ending⟩ = Suite.ofJson? (Json.obj ms).reread := by
  obtain ⟨before, after, text, hblank, htext, rfl⟩ := h
  obtain ⟨cs, hcs⟩ := Json.exists_braces hms htext
  have hfirst : ∀ c ∈ ('\x7b' :: cs ++ ['\x7d']).head?, isBlank c = false := by
    rintro c ⟨⟩
    decide
  have hlast : ∀ c ∈ ('\x7b' :: cs ++ ['\x7d']).getLast?, isBlank c = false := by
    rw [List.getLast?_concat]
    rintro c ⟨⟩
    decide
  have htrim : trim (before ++ text.toList ++ after) = text.toList :=
    Trims.trim_eq ⟨before, after, rfl, List.all_eq_true.1 hblank, hcs ▸ hfirst, hcs ▸ hlast⟩
  have hcandidate : candidate? ⟨Utf8.encode (before ++ text.toList ++ after), stderr, ending⟩ =
      some text.toList := by
    rw [candidate?, Utf8.decode?_encode]
    simp only [htrim]
    rw [hcs]
    rfl
  rw [printed?, hcandidate]
  simp only [Option.bind_eq_bind, Option.bind_some, Json.read?_text htext]

/-! ## Calls of programs -/

variable {σ : Type} {l : Launcher σ} {now : Timestamp} {outer : Table OsText}
  {interpreter : Option Path}
  {i : Invocation} {session : Session σ} {state : σ} {elapsed : Duration} {s : Suite} {r : Report}

/-- A call of a program on whose output a suite is found. -/
theorem programEngine_call_of_printed (hprinted : Output.printed? ⟨stdout, stderr, ending⟩ = some s)
    (hlaunch : l.launch (.of outer interpreter session.context i) session.state =
      (.ok ⟨⟨stdout, stderr, ending⟩, elapsed⟩, state)) :
    (programEngine l now outer interpreter).call i session =
      (.ok (Output.adopt i.name elapsed s), ⟨session.context, state⟩) := by
  simp only [programEngine, hlaunch, Output.toSuite, hprinted]

/-- **A program that prints a suite gives that suite**, its timestamp in whole milliseconds. -/
theorem programEngine_call_of_suite (hs : s.Portable) (hname : s.name ≠ "")
    (htime : s.time.isZero = false)
    (hshows : Json.Shows stdout s.toJson)
    (hlaunch : l.launch (.of outer interpreter session.context i) session.state =
      (.ok ⟨⟨stdout, stderr, ending⟩, elapsed⟩, state)) :
    (programEngine l now outer interpreter).call i session =
      (.ok s.toMillis, ⟨session.context, state⟩) := by
  have hprinted : Output.printed? ⟨stdout, stderr, ending⟩ = some s.toMillis :=
    (Output.printed?_of_shows (List.cons_ne_nil _ _) hshows).trans (Suite.ofJson?_reread hs)
  have hadopt : Output.adopt i.name elapsed s.toMillis = s.toMillis := by
    have hnamed : s.toMillis.orNamed i.name = s.toMillis := if_neg hname
    rw [Output.adopt, hnamed]
    exact if_neg (Bool.eq_false_iff.1 htime)
  rw [programEngine_call_of_printed hprinted hlaunch, hadopt]

/-- A suite of two cases, one of which failed. -/
def nested : Suite where
  name := "nested"
  counts := ⟨4, 1, 1, 1⟩
  time := ⟨1500000000, by decide⟩
  timestamp := some ⟨2024, 2, 29, 23, 59, 59, 123456789⟩
  cases := [
    { name := "first", time := ⟨1001000000, by decide⟩,
      failure := some ⟨"expected \"1\"", some "got\n2"⟩ },
    { name := "second", classname := "net", skipped := some ⟨"", none⟩, systemOut := some "\tü" }]

/-- A launcher of programs that print some bytes, complain and fail. -/
def printing (stdout : List UInt8) : Launcher Unit where
  launch _ s := (.ok ⟨⟨stdout, [0x21], .exited 3⟩, .millisecond⟩, s)

/-- A test in a run. -/
def ping : Invocation where
  name := "ping"
  path := ⟨"/run/ping"⟩
  version := none
  params := .empty
  labels := []
  priority := none

/-- The start of a run. -/
def atStart : Session Unit := ⟨{ baseDir := ⟨"/run"⟩ }, ()⟩

theorem nested_portable : nested.Portable where
  counts := ⟨by decide, by decide, by decide, by decide⟩
  time := ⟨by decide +kernel, by decide +kernel⟩
  caseTimes := by
    have hfirst : (⟨1001000000, by decide⟩ : Duration).Exact :=
      ⟨by decide +kernel, by decide +kernel⟩
    have hzero : Duration.zero.Exact := ⟨by decide +kernel, by decide +kernel⟩
    exact List.forall_mem_cons.2 ⟨hfirst, List.forall_mem_singleton.2 hzero⟩
  timestamp := by
    rintro t ⟨⟩
    exact ⟨by decide, by decide, by decide, by decide, .inl (by decide)⟩

/-- A suite between line ends, printed by a program that fails. -/
theorem programEngine_call_of_nested :
    let bs := Utf8.encode (['\n'] ++ nested.toJson.render.toList ++ ['\r', '\n'])
    nested.Portable ∧ nested.name ≠ "" ∧ nested.time.isZero = false ∧ Json.Shows bs nested.toJson ∧
      (programEngine (printing bs) ⟨2024, 3, 1, 0, 0, 0, 0⟩ .empty none).call ping atStart =
        (.ok nested.toMillis, atStart) := by
  intro bs
  have hname : nested.name ≠ "" := by decide
  have htime : nested.time.isZero = false := by decide
  have hshows : Json.Shows bs nested.toJson :=
    ⟨['\n'], ['\r', '\n'], nested.toJson.render, by decide, .inl rfl, rfl⟩
  exact ⟨nested_portable, hname, htime, hshows,
    programEngine_call_of_suite nested_portable hname htime hshows rfl⟩

/-! ## Runs within runs -/

/-- One more suite among outcomes that fit together adds its counts to those of the report. -/
theorem Report.counts_foldl_take_insert {total : Report} {os os' : List Outcome}
    (h : (total.counts.add (totalCounts ((os ++ .suite s :: os').filterMap Outcome.suite?))).Fits) :
    ((os ++ .suite s :: os').foldl take total).counts =
      ((os ++ os').foldl take total).counts.add s.counts := by
  have hsum : total.counts.add (totalCounts ((os ++ .suite s :: os').filterMap Outcome.suite?)) =
      (total.counts.add (totalCounts ((os ++ os').filterMap Outcome.suite?))).add s.counts := by
    have hsuites : (Outcome.suite s :: os').filterMap Outcome.suite? =
        s :: os'.filterMap Outcome.suite? := rfl
    simp only [List.filterMap_append, hsuites, totalCounts_append, totalCounts_cons, Counts.add,
      Counts.mk.injEq]
    omega
  rw [foldl_take_of_fits h, foldl_take_of_fits (hsum ▸ h).of_add, hsum]

/-- **A program that prints the report of a run gives a suite with the counts of that report**,
which are then counted exactly. The time of the suite may be another one, since the text of a number
need not be read as that number. -/
theorem programEngine_call_of_report (hname : r.name ≠ "") (hcounts : r.counts.Fits)
    (htime : Duration.ofSeconds? r.time.toSeconds = some r.time) (hstarted : r.started.Valid)
    (hshows : Json.Shows stdout r.toJson)
    (hlaunch : l.launch (.of outer interpreter session.context i) session.state =
      (.ok ⟨⟨stdout, stderr, ending⟩, elapsed⟩, state)) :
    ∃ s, (programEngine l now outer interpreter).call i session =
      (.ok s, ⟨session.context, state⟩) ∧
      s.name = r.name ∧ s.counts = r.counts ∧ s.timestamp = some r.started.toMillis ∧ s.cases = [] ∧
      ∀ (total : Report) (os os' : List Outcome),
        (total.counts.add (totalCounts ((os ++ .suite s :: os').filterMap Outcome.suite?))).Fits →
          ((os ++ .suite s :: os').foldl Report.take total).counts =
            ((os ++ os').foldl Report.take total).counts.add r.counts := by
  obtain ⟨time, hread⟩ := Report.ofJson?_reread hcounts htime hstarted
  have hprinted : Output.printed? ⟨stdout, stderr, ending⟩ = some (r.condensed time) :=
    (Output.printed?_of_shows (List.cons_ne_nil _ _) hshows).trans hread
  have hadopt : Output.adopt i.name elapsed (r.condensed time) =
      r.condensed (if time.isZero then elapsed else time) := by
    have hnamed : (r.condensed time).orNamed i.name = r.condensed time := if_neg hname
    rw [Output.adopt, hnamed]
    cases hzero : time.isZero
    · exact if_neg (Bool.eq_false_iff.1 hzero)
    · exact if_pos hzero
  refine ⟨_, programEngine_call_of_printed hprinted hlaunch, ?_⟩
  rw [hadopt]
  exact ⟨rfl, rfl, rfl, rfl, fun _ _ _ hfits => Report.counts_foldl_take_insert hfits⟩

/-- The report of a run with one failure, printed by a program that fails. -/
theorem programEngine_call_of_failure :
    let r := Report.ofFailure "login" "refused"
    let bs := Utf8.encode ([] ++ r.renderJson.toList ++ ['\n'])
    r.name ≠ "" ∧ r.counts.Fits ∧ Duration.ofSeconds? r.time.toSeconds = some r.time ∧
      r.started.Valid ∧
      Json.Shows bs r.toJson ∧
      ∃ s, (programEngine (printing bs) ⟨2024, 3, 2, 0, 0, 0, 0⟩ .empty none).call ping atStart =
        (.ok s, atStart) ∧
        s.name = "nightly" ∧ s.counts = ⟨1, 0, 1, 0⟩ ∧
          s.timestamp = some ⟨2024, 3, 1, 12, 0, 0, 0⟩ ∧ s.cases = [] := by
  intro r bs
  have hname : r.name ≠ "" := by decide
  have hcounts : r.counts.Fits := ⟨by decide, by decide, by decide, by decide⟩
  have htime : Duration.ofSeconds? r.time.toSeconds = some r.time := by decide +kernel
  have hstarted : r.started.Valid := ⟨by decide, by decide, by decide, by decide, .inl (by decide)⟩
  have hshows : Json.Shows bs r.toJson := ⟨[], ['\n'], r.renderJson, by decide, .inr rfl, rfl⟩
  obtain ⟨s, hcall, hsname, hsum, htimestamp, hcases, -⟩ :=
    programEngine_call_of_report (l := printing bs) (i := ping)
    hname hcounts htime hstarted hshows rfl
  exact ⟨hname, hcounts, htime, hstarted, hshows, s, hcall, hsname, hsum,
    htimestamp.trans (by decide), hcases⟩

end TestOrchestrator
