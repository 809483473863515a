import TestOrchestrator.Proofs.Markup.Document
/-!
# What a report tells

* `Report.transcript r` is what a report tells a reader, its times in any form; `Transcript.map`
  changes its texts and times.
* `Transcript.ofXml? cs` reads it from a document, by the names of elements and attributes.
* `ofXml?_renderXml`: from the document of a report comes what the report tells, without the
  characters that markup drops and with the times as they are printed.
* `transcript_eq_of_renderXml_eq`: reports with the same document tell the same.
-/

namespace TestOrchestrator

open Decimal

variable {σ τ υ : Type}

/-! ## Transcripts -/

/-- The note with its texts changed. -/
def Note.map (f : String → String) (n : Note) : Note := ⟨f n.message, n.detail.map f⟩

/-- What is told of a case. -/
structure CaseEntry (τ : Type) where
  name : String
  classname : String
  time : τ
  failure : Option Note
  error : Option Note
  skipped : Option Note
  systemOut : Option String

/-- What is told of a suite. -/
structure SuiteEntry (τ : Type) where
  name : String
  counts : Counts
  timestamp : Option String
  time : τ
  cases : List (CaseEntry τ)

/-- What a report tells. -/
structure Transcript (τ : Type) where
  name : String
  counts : Counts
  timestamp : String
  time : τ
  suites : List (SuiteEntry τ)

/-- The entry with its texts and its time changed. -/
def CaseEntry.map (f : String → String) (g : σ → τ) (c : CaseEntry σ) : CaseEntry τ :=
  ⟨f c.name, f c.classname, g c.time, c.failure.map (Note.map f), c.error.map (Note.map f),
    c.skipped.map (Note.map f), c.systemOut.map f⟩

/-- The entry with its texts and times changed; timestamps stay. -/
def SuiteEntry.map (f : String → String) (g : σ → τ) (s : SuiteEntry σ) : SuiteEntry τ :=
  ⟨f s.name, s.counts, s.timestamp, g s.time, s.cases.map (CaseEntry.map f g)⟩

/-- The transcript with its texts and times changed; timestamps stay. -/
def Transcript.map (f : String → String) (g : σ → τ) (t : Transcript σ) : Transcript τ :=
  ⟨f t.name, t.counts, t.timestamp, g t.time, t.suites.map (SuiteEntry.map f g)⟩

theorem Note.map_map (f f' : String → String) (n : Note) : (n.map f).map f' = n.map (f' ∘ f) := by
  rw [map, map, map, Option.map_map]
  rfl

theorem CaseEntry.map_map (f f' : String → String) (g : σ → τ) (g' : τ → υ) (c : CaseEntry σ) :
    (c.map f g).map f' g' = c.map (f' ∘ f) (g' ∘ g) := by
  have hnotes : Note.map f' ∘ Note.map f = Note.map (f' ∘ f) := funext (Note.map_map f f')
  rw [map, map, map, Option.map_map, Option.map_map, Option.map_map, Option.map_map, hnotes]
  rfl

theorem SuiteEntry.map_map (f f' : String → String) (g : σ → τ) (g' : τ → υ) (s : SuiteEntry σ) :
    (s.map f g).map f' g' = s.map (f' ∘ f) (g' ∘ g) := by
  have hcases : CaseEntry.map f' g' ∘ CaseEntry.map f g = CaseEntry.map (f' ∘ f) (g' ∘ g) :=
    funext (CaseEntry.map_map f f' g g')
  rw [map, map, map, List.map_map, hcases]
  rfl

theorem Transcript.map_map (f f' : String → String) (g : σ → τ) (g' : τ → υ) (t : Transcript σ) :
    (t.map f g).map f' g' = t.map (f' ∘ f) (g' ∘ g) := by
  have hsuites : SuiteEntry.map f' g' ∘ SuiteEntry.map f g = SuiteEntry.map (f' ∘ f) (g' ∘ g) :=
    funext (SuiteEntry.map_map f f' g g')
  rw [map, map, map, List.map_map, hsuites]
  rfl

def Case.entry (c : Case) : CaseEntry Duration :=
  ⟨c.name, c.classname, c.time, c.failure, c.error, c.skipped, c.systemOut⟩

def Suite.entry (s : Suite) : SuiteEntry Duration :=
  ⟨s.name, s.counts, s.timestamp.map Timestamp.render, s.time, s.cases.map Case.entry⟩

/-- What a report tells of its run. -/
def Report.transcript (r : Report) : Transcript Duration :=
  ⟨r.name, r.counts, r.started.render, r.time, r.suites.map Suite.entry⟩

/-! ## Reading documents -/

namespace Markup

/-- The attributes and the content of the elements with a name. -/
def elements (tag : String) (nodes : List Node) : List (Attributes × Option (List Node)) :=
  nodes.filterMap fun
    | .element name attrs content => if name = tag then some (attrs, content) else none
    | .char _ => none

/-- The element with a name, if there is one; there must not be two. -/
def only? (tag : String) (content : Option (List Node)) :
    Option (Option (Attributes × Option (List Node))) :=
  match elements tag (content.getD []) with
  | [] => some none
  | [e] => some (some e)
  | _ => none

/-- The text of a content. -/
def textOf (nodes : List Node) : String :=
  String.ofList (nodes.filterMap fun
    | .char c => some c
    | .element .. => none)

/-- An attribute that is a number. -/
def number? (attrs : Attributes) (name : String) : Option Nat :=
  (attrs.lookup name).bind fun s => natural? 10 s.toList

def counts? (attrs : Attributes) : Option Counts := do
  let total ← number? attrs "tests"
  let skipped ← number? attrs "skipped"
  let failures ← number? attrs "failures"
  let errors ← number? attrs "errors"
  return ⟨total, skipped, failures, errors⟩

def note? (tag : String) (content : Option (List Node)) : Option (Option Note) := do
  match ← only? tag content with
  | none => return none
  | some (attrs, detail) =>
    let message ← attrs.lookup "message"
    return some ⟨message, detail.map textOf⟩

/-- A case; without the attribute its class is empty. -/
def case? (e : Attributes × Option (List Node)) : Option (CaseEntry String) := do
  let name ← e.1.lookup "name"
  let time ← e.1.lookup "time"
  let failure ← note? "failure" e.2
  let error ← note? "error" e.2
  let skipped ← note? "skipped" e.2
  let output ← only? "system-out" e.2
  return ⟨name, (e.1.lookup "classname").getD "", time, failure, error, skipped,
    output.map fun o => textOf (o.2.getD [])⟩

def suite? (e : Attributes × Option (List Node)) : Option (SuiteEntry String) := do
  let name ← e.1.lookup "name"
  let counts ← counts? e.1
  let time ← e.1.lookup "time"
  let cases ← (elements "testcase" (e.2.getD [])).mapM case?
  return ⟨name, counts, e.1.lookup "timestamp", time, cases⟩

def report? : Node → Option (Transcript String)
  | .element "testsuites" attrs content => do
    let name ← attrs.lookup "name"
    let counts ← counts? attrs
    let timestamp ← attrs.lookup "timestamp"
    let time ← attrs.lookup "time"
    let suites ← (elements "testsuite" (content.getD [])).mapM suite?
    return ⟨name, counts, timestamp, time, suites⟩
  | _ => none

end Markup

/-- What a document tells. -/
def Transcript.ofXml? (cs : List Char) : Option (Transcript String) :=
  (Markup.read? cs).bind Markup.report?

/-! ## What the document of a report tells -/

/-- A list is read item by item. -/
theorem mapM_map_eq {α β γ : Type} {f : α → β} {read : β → Option γ} {g : α → γ} {as : List α}
    (h : ∀ a ∈ as, read (f a) = some (g a)) : (as.map f).mapM read = some (as.map g) := by
  induction as with
  | nil => rfl
  | cons a as ih =>
    obtain ⟨ha, has⟩ := List.forall_mem_cons.1 h
    rw [List.map_cons, List.mapM_cons, ha, ih has]
    rfl

namespace Markup

variable {nodes more : List Node} {tag name : String} {attrs : Attributes}
  {content : Option (List Node)}

theorem elements_append (tag : String) (nodes more : List Node) :
    elements tag (nodes ++ more) = elements tag nodes ++ elements tag more := List.filterMap_append

theorem elements_chars (tag : String) (cs : List Char) : elements tag (cs.map .char) = [] := by
  induction cs with
  | nil => rfl
  | cons c cs ih => exact ih

theorem elements_line (level : Nat) : elements tag (line level (.element name attrs content)) =
    if name = tag then [(attrs, content)] else [] := by
  rw [line, elements_append, elements_chars, List.nil_append]
  by_cases h : name = tag <;> simp [elements, h]

theorem textOf_textNodes (s : String) : textOf (textNodes s) = printable s := by
  unfold textOf textNodes printable
  rw [List.filterMap_map]
  exact congrArg String.ofList List.filterMap_some

theorem only?_eq {o : Option (Attributes × Option (List Node))}
    (h : elements tag (content.getD []) = o.toList) :
    only? tag content = some o := by
  rw [only?, h]
  cases o <;> rfl

/-! ### Notes -/

theorem elements_noteNodes (n : Option Note) : elements tag (noteNodes name n) =
    if name = tag then
      (n.map fun n => ([("message", printable n.message)], n.detail.map textNodes)).toList
    else [] := by
  cases n with
  | none => cases Decidable.em (name = tag) <;> simp [noteNodes, elements, *]
  | some n => exact elements_line 3

theorem elements_outputNodes (text : Option String) : elements tag (outputNodes text) =
    if "system-out" =
      tag then (text.map fun text => ([], some (textNodes text))).toList else [] := by
  cases text with
  | none => cases Decidable.em ("system-out" = tag) <;> simp [outputNodes, elements, *]
  | some text => exact elements_line 3

theorem note?_eq {n : Option Note} (h : elements tag (content.getD []) =
    (n.map fun n => ([("message", printable n.message)], n.detail.map textNodes)).toList) :
    note? tag content = some (n.map (Note.map printable)) := by
  rw [note?, only?_eq h]
  cases n with
  | none => rfl
  | some n =>
    obtain ⟨message, detail⟩ := n
    cases detail with
    | none => rfl
    | some detail =>
      have hdetail := textOf_textNodes detail
      simp [Note.map, hdetail]

/-! ### Cases -/

/-- The content of a case has the nodes of what is known of it. -/
theorem elements_caseNodes (c : Case) (tag : String) :
    elements tag
      ((if isBare c then none else some (Node.char '\n' :: caseNodes c ++
        (Xml.indent 2).map .char)).getD []) =
      elements tag (caseNodes c) := by
  by_cases hbare : isBare c = true
  · have hnone : caseNodes c = [] := by
      simp only [isBare, Bool.and_eq_true, Option.isNone_iff_eq_none] at hbare
      obtain ⟨⟨⟨hfailure, herror⟩, hskipped⟩, houtput⟩ := hbare
      rw [caseNodes, hfailure, herror, hskipped, houtput]
      rfl
    rw [if_pos hbare, hnone]
    rfl
  · rw [if_neg hbare, Option.getD_some, List.cons_append]
    show elements tag (caseNodes c ++ (Xml.indent 2).map .char) = _
    rw [elements_append, elements_chars, List.append_nil]

/-- A case is read from its element. -/
theorem case?_caseNode (c : Case) :
    case? (caseAttrs c, if isBare c then none else some
      (.char '\n' :: caseNodes c ++ (Xml.indent 2).map .char)) =
      some (c.entry.map printable Duration.threePlaces) := by
  have hname : (caseAttrs c).lookup "name" = some (printable c.name) := rfl
  have htime : (caseAttrs c).lookup "time" = some c.time.threePlaces := by
    unfold caseAttrs
    split <;> rfl
  have hclass : ((caseAttrs c).lookup "classname").getD "" = printable c.classname := by
    unfold caseAttrs
    split
    · rename_i hempty
      rw [hempty]
      rfl
    · rfl
  have hcontent := elements_caseNodes c
  generalize (if isBare c then none else some (Node.char '\n' :: caseNodes c ++
    (Xml.indent 2).map .char)) = content at *
  have hfailure : note? "failure" content = some (c.failure.map (Note.map printable)) := by
    refine note?_eq ?_
    simp [hcontent, caseNodes, elements_append, elements_noteNodes, elements_outputNodes]
  have herror : note? "error" content = some (c.error.map (Note.map printable)) := by
    refine note?_eq ?_
    simp [hcontent, caseNodes, elements_append, elements_noteNodes, elements_outputNodes]
  have hskipped : note? "skipped" content = some (c.skipped.map (Note.map printable)) := by
    refine note?_eq ?_
    simp [hcontent, caseNodes, elements_append, elements_noteNodes, elements_outputNodes]
  have houtput : only? "system-out" content =
      some (c.systemOut.map fun text => ([], some (textNodes text))) := by
    refine only?_eq ?_
    simp [hcontent, caseNodes, elements_append, elements_noteNodes, elements_outputNodes]
  have htexts : ((fun o : Attributes × Option (List Node) => textOf (o.2.getD [])) ∘
      fun text => ([], some (textNodes text))) = printable := funext textOf_textNodes
  rw [case?]
  simp only [hname, htime, hclass, hfailure, herror, hskipped, houtput, Option.bind_eq_bind,
    Option.bind_some, Option.map_map, htexts]
  rfl

/-! ### Suites and reports -/

theorem natural?_decimal (n : Nat) : natural? 10 (decimal n).toList = some n := by
  rw [decimal, String.toList_ofList, natural?_digitsOf]

theorem counts?_eq (c : Counts) (value : String) (more : Attributes) :
    counts? (("name", value) :: (countAttrs c ++ more)) = some c := by
  simp [counts?, number?, countAttrs, List.lookup_cons, natural?_decimal]

/-- The elements of a list that stand on lines of their own. -/
theorem elements_lines {α : Type} (tag : String) (level : Nat) (attrs : α → Attributes)
    (content : α → Option (List Node)) (as : List α) :
    elements tag (as.flatMap fun a => line level (.element tag (attrs a) (content a))) =
      as.map fun a => (attrs a, content a) := by
  induction as with
  | nil => rfl
  | cons a as ih =>
    rw [List.flatMap_cons, elements_append, elements_line, if_pos rfl, ih, List.singleton_append,
      List.map_cons]

/-- A suite is read from its element. -/
theorem suite?_suiteNode (s : Suite) :
    suite? (suiteAttrs s, if s.cases.isEmpty then none
      else some (.char '\n' :: s.cases.flatMap (fun c => line 2 (caseNode c)) ++
        (Xml.indent 1).map .char)) =
        some (s.entry.map printable Duration.threePlaces) := by
  have hname : (suiteAttrs s).lookup "name" = some (printable s.name) := rfl
  have hcounts : counts? (suiteAttrs s) = some s.counts := by
    unfold suiteAttrs
    rw [List.append_assoc, List.append_assoc]
    exact counts?_eq s.counts (printable s.name) _
  have htime : (suiteAttrs s).lookup "time" = some s.time.threePlaces := by
    unfold suiteAttrs
    cases s.timestamp <;> rfl
  have htimestamp : (suiteAttrs s).lookup "timestamp" = s.timestamp.map Timestamp.render := by
    unfold suiteAttrs
    cases s.timestamp <;> rfl
  have hcases : ∀ content : Option (List Node), elements "testcase" (content.getD []) =
      s.cases.map (fun c => (caseAttrs c, if isBare c then none
        else some (.char '\n' :: caseNodes c ++ (Xml.indent 2).map .char))) →
      (elements "testcase" (content.getD [])).mapM case? =
        some (s.cases.map fun c => c.entry.map printable Duration.threePlaces) := by
    intro content h
    rw [h, mapM_map_eq fun c _ => case?_caseNode c]
  rw [suite?]
  simp only [hname, hcounts, htime, htimestamp, Option.bind_eq_bind, Option.bind_some]
  rw [hcases]
  · rw [Suite.entry, SuiteEntry.map, List.map_map]
    rfl
  · by_cases hempty : s.cases.isEmpty = true
    · rw [if_pos hempty, List.isEmpty_iff.1 hempty]
      rfl
    · rw [if_neg hempty, Option.getD_some, List.cons_append]
      show elements "testcase" (s.cases.flatMap (fun c => line 2 (caseNode c)) ++
        (Xml.indent 1).map .char) = _
      rw [elements_append, elements_chars, List.append_nil]
      exact elements_lines "testcase" 2 caseAttrs _ s.cases

/-- A report is read from its document. -/
theorem report?_document (r : Report) :
    report? (document r) = some (r.transcript.map printable Duration.threePlaces) := by
  have hname : (reportAttrs r).lookup "name" = some (printable r.name) := rfl
  have hcounts : counts? (reportAttrs r) = some r.counts := by
    unfold reportAttrs
    rw [List.append_assoc, List.append_assoc]
    exact counts?_eq r.counts (printable r.name) _
  have htimestamp : (reportAttrs r).lookup "timestamp" = some r.started.render := rfl
  have htime : (reportAttrs r).lookup "time" = some r.time.threePlaces := rfl
  have helements : elements "testsuite" ((if r.suites.isEmpty then none
      else some (Node.char '\n' :: r.suites.flatMap fun s => line 1 (suiteNode s))).getD []) =
        r.suites.map fun s => (suiteAttrs s, if s.cases.isEmpty then none
          else some (.char '\n' :: s.cases.flatMap (fun c => line 2 (caseNode c)) ++
            (Xml.indent 1).map .char)) := by
    by_cases hempty : r.suites.isEmpty = true
    · rw [if_pos hempty, List.isEmpty_iff.1 hempty]
      rfl
    · rw [if_neg hempty, Option.getD_some]
      exact elements_lines "testsuite" 1 suiteAttrs _ r.suites
  have hsuites := mapM_map_eq fun s (_ : s ∈ r.suites) => suite?_suiteNode s
  rw [document, report?]
  simp only [hname, hcounts, htimestamp, htime, helements, hsuites, Option.bind_eq_bind,
    Option.bind_some]
  rw [Report.transcript, Transcript.map, List.map_map]
  rfl

end Markup

namespace Report

open Markup

/-- **What a document tells is what its report tells**, without the characters that markup drops and
with the times as they are printed. -/
theorem ofXml?_renderXml (r : Report) :
    Transcript.ofXml? r.renderXml.toList =
      some (r.transcript.map printable Duration.threePlaces) := by
  rw [renderXml, String.toList_ofList, Transcript.ofXml?, read?_xml, Option.bind_some,
    report?_document]

/-- **Reports with the same document tell the same**: no text of a report can change or imitate its
elements. -/
theorem transcript_eq_of_renderXml_eq (r r' : Report) (h : r.renderXml = r'.renderXml) :
    r.transcript.map printable Duration.threePlaces =
      r'.transcript.map printable Duration.threePlaces := by
  have hread := ofXml?_renderXml r
  rw [h, ofXml?_renderXml r'] at hread
  exact (Option.some.inj hread).symm

/-- A report of one failed case, on whose name and detail nothing else depends. -/
def ofFailure (name detail : String) : Report where
  name := "nightly"
  version := "1.0"
  counts := ⟨1, 0, 1, 0⟩
  started := ⟨2024, 3, 1, 12, 0, 0, 0⟩
  suites := [{
    name := "smoke"
    counts := ⟨1, 0, 1, 0⟩
    cases := [{ name, failure := some ⟨"expected \"<\" & 'b'", some detail⟩ }] }]
  finalized := true

/-- Markup drops a control character. -/
theorem transcript_eq_of_dropped :
    (ofFailure "a\x01b" "</failure>\x02").renderXml = (ofFailure "ab" "</failure>").renderXml ∧
      (ofFailure "a\x01b" "</failure>\x02").transcript.map printable Duration.threePlaces =
        (ofFailure "ab" "</failure>").transcript.map printable Duration.threePlaces :=
  have hsame : (ofFailure "a\x01b" "</failure>\x02").renderXml =
      (ofFailure "ab" "</failure>").renderXml :=
    congrArg String.ofList (by decide +kernel)
  ⟨hsame, transcript_eq_of_renderXml_eq _ _ hsame⟩

end Report

end TestOrchestrator
