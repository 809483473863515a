import TestOrchestrator.Proofs.Accounts
import TestOrchestrator.Proofs.JsonText.Values
import TestOrchestrator.Proofs.Transcript
import TestOrchestrator.Report.Rendering
/-!
# The two renderings of a report

* `Transcript.ofJson? bs` reads what a report tells from its JSON text, by the names of members.
  Times are passed over.
* `ofJson?_renderJson`: from the JSON text of a report comes all that the report tells.
* `renderings_agree`: the JSON text and the document of a report tell the same, but for the
  characters that markup drops.
-/

namespace TestOrchestrator

open Text.Utf8

namespace Json

variable {α : Type} {ms : List (String × Json)} {names : List String} {key : String}

theorem lookup_rereadMembers (ms : List (String × Json)) (key : String) :
    (rereadMembers ms).lookup key = (ms.lookup key).map reread := by
  induction ms with
  | nil => rfl
  | cons m ms ih =>
    obtain ⟨name, j⟩ := m
    rw [rereadMembers, List.lookup_cons, List.lookup_cons, ih]
    split <;> rfl

/-- Of members that are all different, those stay that are fields. -/
theorem fieldsOf_eq_filter (hms : (ms.map (·.1)).Nodup) :
    fieldsOf names ms = some (ms.filter fun m => names.contains m.1) := by
  induction ms with
  | nil => rfl
  | cons m ms ih =>
    obtain ⟨name, j⟩ := m
    obtain ⟨hname, hms⟩ := List.nodup_cons.1 hms
    have hfresh : (ms.filter fun m => names.contains m.1).lookup name = none := by
      refine List.lookup_eq_none_iff.2 fun m hm => bne_iff_ne.2 ?_
      rintro rfl
      exact hname (List.mem_map.2 ⟨m, (List.mem_filter.1 hm).1, rfl⟩)
    rw [fieldsOf, ih hms, List.filter_cons]
    simp only [hfresh, Option.isSome_none, Bool.false_eq_true, if_false]
    split <;> rfl

theorem rereadMembers_filter (ms : List (String × Json)) :
    (rereadMembers ms).filter (fun m => names.contains m.1) =
      rereadMembers (ms.filter fun m => names.contains m.1) := by
  simp only [rereadMembers_eq, List.filter_map]
  rfl

theorem keys_rereadMembers (ms : List (String × Json)) :
    (rereadMembers ms).map (·.1) = ms.map (·.1) := by
  rw [rereadMembers_eq, List.map_map]
  rfl

/-- The record that comes back from the text of an object that may have more than its fields. -/
theorem record?_reread_filter (hms : (ms.map (·.1)).Nodup) :
    (reread (.obj ms)).record? names =
      some (rereadMembers (ms.filter fun m => names.contains m.1)) := by
  rw [← rereadMembers_filter]
  exact fieldsOf_eq_filter (keys_rereadMembers ms ▸ hms)

/-- The record that comes back from the text of an object. -/
theorem record?_reread (hms : (ms.map (·.1)).Sublist names) (hnames : names.Nodup) :
    (reread (.obj ms)).record? names = some (rereadMembers ms) := by
  have hfields : ∀ m ∈ ms, names.contains m.1 = true := fun m hm =>
    List.contains_iff_mem.2 (hms.subset (List.mem_map.2 ⟨m, hm, rfl⟩))
  rw [record?_reread_filter (hms.nodup hnames), List.filter_eq_self.2 hfields]

theorem required_reread {read : Json → Option α} {j : Json} {a : α} (h : ms.lookup key = some j)
    (hread : read (reread j) = some a) : required (rereadMembers ms) key read = some a := by
  rw [required, lookup_rereadMembers, h, Option.map_some, Option.bind_some, hread]

theorem optional_reread {read : Json → Option α} {write : α → Json} {a : Option α}
    (h : ms.lookup key = a.map write)
    (hread : ∀ a, nullable? read (reread (write a)) = some (some a)) :
    optional (rereadMembers ms) key none (nullable? read) = some a := by
  rw [optional, lookup_rereadMembers, h]
  cases a with
  | none => rfl
  | some a => exact hread a

theorem lookup_member? (name key : String) (write : α → Json) (a : Option α) :
    (member? name write a).lookup key = if key = name then a.map write else none := by
  cases a with
  | none => split <;> rfl
  | some a =>
    by_cases h : key = name
    · simp [member?, h]
    · simp [member?, List.lookup_cons, h, beq_false_of_ne h]

theorem keys_member? (name : String) (write : α → Json) (a : Option α) :
    ((member? name write a).map (·.1)).Sublist [name] := by
  cases a with
  | none => exact List.nil_sublist _
  | some a => exact List.Sublist.refl _

end Json

/-! ## Reading JSON texts -/

namespace Transcript

def caseOfJson? (j : Json) : Option (CaseEntry Unit) := do
  let r ← j.record? Case.fields
  let name ← Json.required r "name" Json.text?
  let classname ← Json.required r "classname" Json.text?
  let failure ← Json.optional r "failure" none (Json.nullable? Note.ofJson?)
  let error ← Json.optional r "error" none (Json.nullable? Note.ofJson?)
  let skipped ← Json.optional r "skipped" none (Json.nullable? Note.ofJson?)
  let systemOut ← Json.optional r "system_out" none (Json.nullable? Json.text?)
  return ⟨name, classname, (), failure, error, skipped, systemOut⟩

def countsOfJson? (r : Json.Members) : Option Counts := do
  let total ← Json.required r "tests" Json.count?
  let skipped ← Json.required r "skipped" Json.count?
  let failures ← Json.required r "failures" Json.count?
  let errors ← Json.required r "errors" Json.count?
  return ⟨total, skipped, failures, errors⟩

def suiteOfJson? (j : Json) : Option (SuiteEntry Unit) := do
  let r ← j.record? Suite.fields
  let name ← Json.required r "name" Json.text?
  let counts ← countsOfJson? r
  let timestamp ← Json.optional r "timestamp" none (Json.nullable? Json.text?)
  let cases ← Json.required r "testcase" (Json.list? caseOfJson?)
  return ⟨name, counts, timestamp, (), cases⟩

def reportFields : List String :=
  ["name", "version", "tests", "skipped", "failures", "errors", "timestamp", "time", "testsuite"]

def reportOfJson? (j : Json) : Option (Transcript Unit) := do
  let r ← j.record? reportFields
  let name ← Json.required r "name" Json.text?
  let counts ← countsOfJson? r
  let timestamp ← Json.required r "timestamp" Json.text?
  let suites ← Json.required r "testsuite" (Json.list? suiteOfJson?)
  return ⟨name, counts, timestamp, (), suites⟩

/-- What a JSON text tells. -/
def ofJson? (bs : List UInt8) : Option (Transcript Unit) := (Json.read? bs).bind reportOfJson?

end Transcript

/-! ## What the JSON text of a report tells -/

/-- No time. -/
def untimed (_ : Duration) : Unit := ()

theorem Note.map_id : Note.map id = id := by
  funext n
  obtain ⟨message, detail⟩ := n
  cases detail <;> rfl

theorem Note.ofJson?_reread (n : Note) : Note.ofJson? n.toJson.reread = some n := by
  obtain ⟨message, detail⟩ := n
  cases detail <;> rfl

namespace Transcript

/-- The members of a case. -/
def caseMembers (c : Case) : List (String × Json) :=
  [("name", .str c.name), ("classname", .str c.classname), ("time", c.time.toJson)] ++
    Json.member? "failure" Note.toJson c.failure ++ Json.member? "error" Note.toJson c.error ++
    Json.member? "skipped" Note.toJson c.skipped ++ Json.member? "system_out" .str c.systemOut

/-- The members of a record tell the texts of a case. -/
structure TellsCase (r : Json.Members) (c : Case) : Prop where
  name : r.lookup "name" = some (.str c.name)
  classname : r.lookup "classname" = some (.str c.classname)
  failure : Json.optional r "failure" none (Json.nullable? Note.ofJson?) = some c.failure
  error : Json.optional r "error" none (Json.nullable? Note.ofJson?) = some c.error
  skipped : Json.optional r "skipped" none (Json.nullable? Note.ofJson?) = some c.skipped
  systemOut : Json.optional r "system_out" none (Json.nullable? Json.text?) = some c.systemOut

theorem tellsCase_reread (c : Case) : TellsCase (Json.rereadMembers (caseMembers c)) c := by
  have hnote : ∀ n : Note, Json.nullable? Note.ofJson? n.toJson.reread = some (some n) := by
    intro n
    show (Note.ofJson? n.toJson.reread).map some = _
    rw [n.ofJson?_reread, Option.map_some]
  have hfailure : (caseMembers c).lookup "failure" = c.failure.map Note.toJson := by
    simp [caseMembers, List.lookup_append, Json.lookup_member?, List.lookup_cons]
  have herror : (caseMembers c).lookup "error" = c.error.map Note.toJson := by
    simp [caseMembers, List.lookup_append, Json.lookup_member?, List.lookup_cons]
  have hskipped : (caseMembers c).lookup "skipped" = c.skipped.map Note.toJson := by
    simp [caseMembers, List.lookup_append, Json.lookup_member?, List.lookup_cons]
  have hout : (caseMembers c).lookup "system_out" = c.systemOut.map Json.str := by
    simp [caseMembers, List.lookup_append, Json.lookup_member?, List.lookup_cons]
  exact {
    name := rfl
    classname := rfl
    failure := Json.optional_reread hfailure hnote
    error := Json.optional_reread herror hnote
    skipped := Json.optional_reread hskipped hnote
    systemOut := Json.optional_reread hout fun _ => rfl }

theorem record?_case (c : Case) :
    c.toJson.reread.record? Case.fields = some (Json.rereadMembers (caseMembers c)) := by
  have hkeys := (((((List.Sublist.refl ["name", "classname", "time"]).append
    (Json.keys_member? "failure" Note.toJson c.failure)).append
    (Json.keys_member? "error" Note.toJson c.error)).append
    (Json.keys_member? "skipped" Note.toJson c.skipped)).append
    (Json.keys_member? "system_out" Json.str c.systemOut))
  refine Json.record?_reread ?_ (by decide)
  simp only [List.map_append]
  exact hkeys

theorem caseOfJson?_reread (c : Case) :
    caseOfJson? c.toJson.reread = some (c.entry.map id untimed) := by
  have h := tellsCase_reread c
  rw [caseOfJson?, record?_case, Case.entry, CaseEntry.map, Note.map_id]
  simp only [Json.required, h.name, h.classname, h.failure, h.error, h.skipped, h.systemOut,
    Option.bind_eq_bind, Option.bind_some, Option.map_id, id]
  rfl

/-- A count that fits comes back from its text. -/
theorem count?_reread {n : Nat} (h : n < countLimit) :
    Json.count? (Json.reread (.int n)) = some n := by
  rw [Json.reread_count h]
  exact if_pos h

theorem countsOfJson?_reread {c : Counts} {ms : List (String × Json)} (hfits : c.Fits)
    (htotal : ms.lookup "tests" = some (.int c.total))
    (hskipped : ms.lookup "skipped" = some (.int c.skipped))
    (hfailures : ms.lookup "failures" = some (.int c.failures))
    (herrors : ms.lookup "errors" = some (.int c.errors)) :
    countsOfJson? (Json.rereadMembers ms) = some c := by
  rw [countsOfJson?, Json.required_reread htotal (count?_reread hfits.total),
    Json.required_reread hskipped (count?_reread hfits.skipped),
    Json.required_reread hfailures (count?_reread hfits.failures),
    Json.required_reread herrors (count?_reread hfits.errors)]
  rfl

theorem list?_reread {α β : Type} {write : α → Json} {read : Json → Option β} {g : α → β}
    {as : List α}
    (h : ∀ a ∈ as, read (write a).reread = some (g a)) :
    Json.list? read (Json.reread (.arr (as.map write))) = some (as.map g) := by
  rw [Json.reread, Json.rereadItems_eq, List.map_map]
  exact mapM_map_eq h

/-- The members of a suite. -/
def suiteMembers (s : Suite) : List (String × Json) :=
  ("name", .str s.name) :: s.counts.members ++ [("time", s.time.toJson)] ++
    Json.member? "timestamp" Timestamp.toJson s.timestamp ++
      [("testcase", .arr (s.cases.map Case.toJson))]

theorem lookup_timestamp (s : Suite) :
    (suiteMembers s).lookup "timestamp" = s.timestamp.map Timestamp.toJson := by
  simp [suiteMembers, Counts.members, List.lookup_append, Json.lookup_member?, List.lookup_cons]

theorem lookup_testcase (s : Suite) :
    (suiteMembers s).lookup "testcase" = some (.arr (s.cases.map Case.toJson)) := by
  simp [suiteMembers, Counts.members, List.lookup_append, Json.lookup_member?, List.lookup_cons]

theorem record?_suite (s : Suite) :
    s.toJson.reread.record? Suite.fields = some (Json.rereadMembers (suiteMembers s)) := by
  have hkeys :=
    ((List.Sublist.refl ["name", "tests", "skipped", "failures", "errors", "time"]).append
    (Json.keys_member? "timestamp" Timestamp.toJson s.timestamp)).append
      (List.Sublist.refl ["testcase"])
  refine Json.record?_reread ?_ (by decide)
  simp only [List.map_append]
  exact hkeys

theorem suiteOfJson?_reread (s : Suite) (hfits : s.counts.Fits) :
    suiteOfJson? s.toJson.reread = some (s.entry.map id untimed) := by
  have hname : Json.required (Json.rereadMembers (suiteMembers s)) "name" Json.text? =
      some s.name :=
    Json.required_reread rfl rfl
  have hcounts : countsOfJson? (Json.rereadMembers (suiteMembers s)) = some s.counts :=
    countsOfJson?_reread hfits rfl rfl rfl rfl
  have htimestamp : Json.optional (Json.rereadMembers (suiteMembers s)) "timestamp" none
      (Json.nullable? Json.text?) = some (s.timestamp.map Timestamp.render) := by
    have hlookup : (suiteMembers s).lookup "timestamp" =
        (s.timestamp.map Timestamp.render).map Json.str := by
      rw [lookup_timestamp, Option.map_map]
      rfl
    exact Json.optional_reread hlookup fun _ => rfl
  have hcases : Json.required (Json.rereadMembers (suiteMembers s)) "testcase"
      (Json.list? caseOfJson?) =
      some (s.cases.map fun c => c.entry.map id untimed) :=
    Json.required_reread (lookup_testcase s) (list?_reread fun c _ => caseOfJson?_reread c)
  rw [suiteOfJson?, record?_suite]
  simp only [hname, hcounts, htimestamp, hcases, Option.bind_eq_bind, Option.bind_some]
  rw [Suite.entry, SuiteEntry.map, List.map_map]
  rfl

/-- The members of a report. -/
def reportMembers (r : Report) : List (String × Json) :=
  ("name", .str r.name) :: (if r.version = "" then [] else [("version", .str r.version)]) ++
    r.counts.members ++
    [("timestamp", r.started.toJson), ("time", r.time.toJson),
      ("testsuite", .arr (r.suites.map Suite.toJson))]

theorem reportOfJson?_reread (r : Report) (hcounts : r.counts.Fits)
    (hsuites : ∀ s ∈ r.suites, s.counts.Fits) :
    reportOfJson? r.toJson.reread = some (r.transcript.map id untimed) := by
  have hversion :
      ((if r.version = "" then [] else [("version", Json.str r.version)]).map (·.1)).Sublist
      ["version"] := by
    split
    · exact List.nil_sublist _
    · exact List.Sublist.refl _
  have hkeys := ((List.Sublist.refl ["name"]).append hversion).append
    (List.Sublist.refl ["tests", "skipped", "failures", "errors", "timestamp", "time", "testsuite"])
  have hrecord : r.toJson.reread.record? reportFields =
      some (Json.rereadMembers (reportMembers r)) := by
    refine Json.record?_reread ?_ (by decide)
    simp only [List.map_append, List.append_assoc]
    simp only [List.append_assoc] at hkeys
    exact hkeys
  have hname : Json.required (Json.rereadMembers (reportMembers r)) "name" Json.text? =
      some r.name :=
    Json.required_reread rfl rfl
  have hlookup : ∀ key, key ≠ "name" → key ≠ "version" → (reportMembers r).lookup key =
      (r.counts.members ++ [("timestamp", r.started.toJson), ("time", r.time.toJson),
        ("testsuite", .arr (r.suites.map Suite.toJson))]).lookup key := by
    intro key hname hversion
    unfold reportMembers
    split <;> simp [List.lookup_cons, beq_false_of_ne hname, beq_false_of_ne hversion]
  have hcounts : countsOfJson? (Json.rereadMembers (reportMembers r)) = some r.counts := by
    refine countsOfJson?_reread hcounts ?_ ?_ ?_ ?_
    all_goals rw [hlookup _ (by decide) (by decide)]; rfl
  have htimestamp : Json.required (Json.rereadMembers (reportMembers r)) "timestamp" Json.text? =
      some r.started.render := by
    have hstarted : (reportMembers r).lookup "timestamp" = some (.str r.started.render) := by
      rw [hlookup _ (by decide) (by decide)]
      rfl
    exact Json.required_reread hstarted rfl
  have hsuites : Json.required (Json.rereadMembers (reportMembers r)) "testsuite"
      (Json.list? suiteOfJson?) =
      some (r.suites.map fun s => s.entry.map id untimed) := by
    refine Json.required_reread ?_ (list?_reread fun s hs => suiteOfJson?_reread s (hsuites s hs))
    rw [hlookup _ (by decide) (by decide)]
    rfl
  rw [reportOfJson?, hrecord]
  simp only [hname, hcounts, htimestamp, hsuites, Option.bind_eq_bind, Option.bind_some]
  rw [Report.transcript, Transcript.map, List.map_map]
  rfl

end Transcript

/-! ## Both renderings -/

/-- The counts of a report and of its suites are numbers of 64 bits. -/
structure Report.Fits (r : Report) : Prop where
  counts : r.counts.Fits
  suites : ∀ s ∈ r.suites, s.counts.Fits

theorem fits_of_totalCounts {rs : List Suite} (h : (totalCounts rs).Fits) :
    ∀ s ∈ rs, s.counts.Fits := by
  induction rs with
  | nil => exact nofun
  | cons r rs ih =>
    rw [totalCounts_cons] at h
    obtain ⟨htotal, hskipped, hfailures, herrors⟩ := h
    simp only [Counts.add] at htotal hskipped hfailures herrors
    have hr : r.counts.Fits := ⟨by omega, by omega, by omega, by omega⟩
    have hrs : (totalCounts rs).Fits := ⟨by omega, by omega, by omega, by omega⟩
    exact List.forall_mem_cons.2 ⟨hr, ih hrs⟩

/-- A report that only took outcomes fits, however large they were. -/
theorem Keeps.fits {α : Type} {outcome : α → Outcome} {r : Report} {xs : List α}
    (h : Keeps outcome r xs) :
    r.Fits := by
  obtain ⟨hcounts, kept, hrecorded, hkept⟩ := h
  have hfits := hrecorded.fits
  rw [hkept] at hfits
  refine ⟨?_, fits_of_totalCounts hfits⟩
  rw [hcounts]
  exact hfits

namespace Report

open Markup

/-- **A JSON text tells all that its report tells**, but for the times, which are not read. -/
theorem ofJson?_renderJson (r : Report) (hr : r.Fits) :
    Transcript.ofJson? (encode r.renderJson.toList) = some (r.transcript.map id untimed) := by
  rw [Transcript.ofJson?, renderJson, Json.read?_pretty, Option.bind_some,
    Transcript.reportOfJson?_reread r hr.counts hr.suites]

/-- **The two renderings of a report tell the same.** Both are read, and from the document comes
what the JSON text tells, without the characters that markup drops. -/
theorem renderings_agree (r : Report) (hr : r.Fits) :
    ∃ a b, Transcript.ofJson? (encode r.renderJson.toList) = some a ∧
      Transcript.ofXml? r.renderXml.toList = some b ∧ a = r.transcript.map id untimed ∧
      b.map id (fun _ => ()) = a.map printable id := by
  refine ⟨_, _, ofJson?_renderJson r hr, ofXml?_renderXml r, rfl, ?_⟩
  rw [Transcript.map_map, Transcript.map_map]
  rfl

/-- A report of one failed case. -/
theorem renderings_agree_of_failure : (ofFailure "a\x01b" "</failure>\x02").Fits ∧
    ∃ a b, Transcript.ofJson? (encode (ofFailure "a\x01b" "</failure>\x02").renderJson.toList) =
      some a ∧
      Transcript.ofXml? (ofFailure "a\x01b" "</failure>\x02").renderXml.toList = some b ∧
      a = (ofFailure "a\x01b" "</failure>\x02").transcript.map id untimed ∧
      b.map id (fun _ => ()) = a.map printable id :=
  have hone : (⟨1, 0, 1, 0⟩ : Counts).Fits := ⟨by decide, by decide, by decide, by decide⟩
  have hfits : (ofFailure "a\x01b" "</failure>\x02").Fits :=
    ⟨hone, List.forall_mem_singleton.2 hone⟩
  ⟨hfits, renderings_agree _ hfits⟩

end Report

end TestOrchestrator
