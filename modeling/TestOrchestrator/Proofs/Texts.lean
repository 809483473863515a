import TestOrchestrator.Proofs.Transcript
/-!
# The texts of a report

* `Transcript.texts t` is all texts that a report tells, each with the part of a document that shows
  it.
* `Transcript.mapTexts` and `Report.mapTexts` change every text as its part asks for.
* `Transcript.mapTexts_eq_iff`: two such changes come to the same just when they agree on every
  text.
-/

namespace TestOrchestrator

variable {σ τ : Type}

/-- The part of a document that shows a text. -/
inductive Markup.Part where
  /-- The value of an attribute. -/
  | value
  /-- The content of an element. -/
  | content
  deriving DecidableEq

open Markup

/-- A change of texts that may depend on the part that shows them. -/
abbrev Markup.Change := Part → String → String

/-- A text changed as its part asks for. -/
def Markup.Change.on (f : Change) (w : Part × String) : Part × String := (w.1, f w.1 w.2)

variable {f f' : Change}

/-! ## Texts -/

/-- A note: its message and its detail. -/
def Note.texts (n : Note) : List (Part × String) :=
  (.value, n.message) :: n.detail.toList.map fun s => (.content, s)

/-- The texts of a note that may be absent. -/
def Note.textsOf (n : Option Note) : List (Part × String) := n.elim [] Note.texts

/-- A case: its names, its notes and its output. -/
def CaseEntry.texts (c : CaseEntry τ) : List (Part × String) :=
  (.value, c.name) :: (.value, c.classname) :: (Note.textsOf c.failure ++ Note.textsOf c.error ++
    Note.textsOf c.skipped ++ c.systemOut.toList.map fun s => (.content, s))

/-- A suite: its name and its cases. -/
def SuiteEntry.texts (s : SuiteEntry τ) : List (Part × String) :=
  (.value, s.name) :: s.cases.flatMap CaseEntry.texts

/-- All texts that a report tells. -/
def Transcript.texts (t : Transcript τ) : List (Part × String) :=
  (.value, t.name) :: t.suites.flatMap SuiteEntry.texts

/-- All texts that a report tells. -/
def Report.texts (r : Report) : List (Part × String) := r.transcript.texts

/-! ## Changes -/

def Note.mapTexts (f : Change) (n : Note) : Note := ⟨f .value n.message, n.detail.map (f .content)⟩

def CaseEntry.mapTexts (f : Change) (g : σ → τ) (c : CaseEntry σ) : CaseEntry τ :=
  ⟨f .value c.name, f .value c.classname, g c.time, c.failure.map (Note.mapTexts f),
    c.error.map (Note.mapTexts f), c.skipped.map (Note.mapTexts f), c.systemOut.map (f .content)⟩

def SuiteEntry.mapTexts (f : Change) (g : σ → τ) (s : SuiteEntry σ) : SuiteEntry τ :=
  ⟨f .value s.name, s.counts, s.timestamp, g s.time, s.cases.map (CaseEntry.mapTexts f g)⟩

/-- The transcript with its texts and times changed; timestamps stay. -/
def Transcript.mapTexts (f : Change) (g : σ → τ) (t : Transcript σ) : Transcript τ :=
  ⟨f .value t.name, t.counts, t.timestamp, g t.time, t.suites.map (SuiteEntry.mapTexts f g)⟩

def Case.mapTexts (f : Change) (c : Case) : Case :=
  { c with
    name := f .value c.name
    classname := f .value c.classname
    failure := c.failure.map (Note.mapTexts f)
    error := c.error.map (Note.mapTexts f)
    skipped := c.skipped.map (Note.mapTexts f)
    systemOut := c.systemOut.map (f .content) }

def Suite.mapTexts (f : Change) (s : Suite) : Suite :=
  { s with name := f .value s.name, cases := s.cases.map (Case.mapTexts f) }

/-- The report with the texts changed that its document shows. -/
def Report.mapTexts (f : Change) (r : Report) : Report :=
  { r with name := f .value r.name, suites := r.suites.map (Suite.mapTexts f) }

/-- A change that is the same in all parts. -/
theorem Transcript.mapTexts_const (f : String → String) (g : σ → τ) (t : Transcript σ) :
    t.mapTexts (fun _ => f) g = t.map f g := rfl

theorem CaseEntry.mapTexts_entry (g : Duration → τ) (c : Case) :
    (c.mapTexts f).entry.mapTexts f' g = c.entry.mapTexts (fun p s => f' p (f p s)) g := by
  have hnote : Note.mapTexts f' ∘ Note.mapTexts f = Note.mapTexts fun p s => f' p (f p s) := by
    funext n
    simp only [Function.comp_apply, Note.mapTexts, Option.map_map]
    rfl
  simp only [Case.entry, Case.mapTexts, CaseEntry.mapTexts, Option.map_map, hnote]
  rfl

theorem SuiteEntry.mapTexts_entry (g : Duration → τ) (s : Suite) :
    (s.mapTexts f).entry.mapTexts f' g = s.entry.mapTexts (fun p s => f' p (f p s)) g := by
  have hcases : ∀ c : Case, (c.mapTexts f).entry.mapTexts f' g =
      c.entry.mapTexts (fun p s => f' p (f p s)) g :=
    CaseEntry.mapTexts_entry g
  simp only [Suite.entry, Suite.mapTexts, SuiteEntry.mapTexts, List.map_map]
  congr 1
  exact List.map_congr_left fun c _ => hcases c

/-- A report changed before it is told is told with the change. -/
theorem Transcript.mapTexts_transcript (g : Duration → τ) (r : Report) :
    (r.mapTexts f).transcript.mapTexts f' g =
      r.transcript.mapTexts (fun p s => f' p (f p s)) g := by
  simp only [Report.transcript, Report.mapTexts, Transcript.mapTexts, List.map_map]
  congr 1
  exact List.map_congr_left fun s _ => SuiteEntry.mapTexts_entry g s

/-! ## The texts of what is changed -/

theorem Note.textsOf_map (f : Change) (n : Option Note) :
    Note.textsOf (n.map (Note.mapTexts f)) = (Note.textsOf n).map f.on := by
  cases n with
  | none => rfl
  | some n =>
    obtain ⟨message, detail⟩ := n
    cases detail <;> rfl

theorem CaseEntry.texts_mapTexts (f : Change) (g : σ → τ) (c : CaseEntry σ) :
    (c.mapTexts f g).texts = c.texts.map f.on := by
  have hout : (c.systemOut.map (f .content)).toList.map (fun s => (Part.content, s)) =
      (c.systemOut.toList.map fun s => (Part.content, s)).map f.on := by
    cases c.systemOut <;> rfl
  simp only [texts, mapTexts, Note.textsOf_map, hout, List.map_cons, List.map_append]
  rfl

theorem SuiteEntry.texts_mapTexts (f : Change) (g : σ → τ) (s : SuiteEntry σ) :
    (s.mapTexts f g).texts = s.texts.map f.on := by
  simp only [texts, mapTexts, List.map_cons, List.map_flatMap, List.flatMap_map,
    CaseEntry.texts_mapTexts]
  rfl

theorem Transcript.texts_mapTexts (f : Change) (g : σ → τ) (t : Transcript σ) :
    (t.mapTexts f g).texts = t.texts.map f.on := by
  simp only [texts, mapTexts, List.map_cons, List.map_flatMap, List.flatMap_map,
    SuiteEntry.texts_mapTexts]
  rfl

theorem Report.texts_mapTexts (f : Change) (r : Report) :
    (r.mapTexts f).texts = r.texts.map f.on := by
  have htold : (r.mapTexts f).transcript.mapTexts (fun _ s => s) id = r.transcript.mapTexts f id :=
    Transcript.mapTexts_transcript id r
  have htexts := congrArg Transcript.texts htold
  rw [Transcript.texts_mapTexts, Transcript.texts_mapTexts] at htexts
  exact (List.map_id _).symm.trans htexts

/-! ## Changes that agree -/

theorem Note.mapTexts_congr {n : Option Note} (h : ∀ w ∈ Note.textsOf n, f w.1 w.2 = f' w.1 w.2) :
    n.map (Note.mapTexts f) = n.map (Note.mapTexts f') := by
  cases n with
  | none => rfl
  | some n =>
    obtain ⟨message, detail⟩ := n
    obtain ⟨hmessage, hdetail⟩ := List.forall_mem_cons.1 h
    cases detail with
    | none => simp only [Option.map_some, Note.mapTexts, hmessage, Option.map_none]
    | some detail =>
      have hdetail := List.forall_mem_singleton.1 hdetail
      simp only [Option.map_some, Note.mapTexts, hmessage, hdetail]

theorem CaseEntry.mapTexts_congr {c : CaseEntry σ} (g : σ → τ)
    (h : ∀ w ∈ c.texts, f w.1 w.2 = f' w.1 w.2) :
    c.mapTexts f g = c.mapTexts f' g := by
  obtain ⟨hname, h⟩ := List.forall_mem_cons.1 h
  obtain ⟨hclass, h⟩ := List.forall_mem_cons.1 h
  simp only [List.forall_mem_append] at h
  obtain ⟨⟨⟨hfailure, herror⟩, hskipped⟩, hout⟩ := h
  have hout : c.systemOut.map (f .content) = c.systemOut.map (f' .content) := by
    refine Option.map_congr fun s hs => hout (.content, s) ?_
    exact List.mem_map_of_mem (Option.mem_toList.2 hs)
  simp only [mapTexts, hname, hclass, hout, Note.mapTexts_congr hfailure,
    Note.mapTexts_congr herror, Note.mapTexts_congr hskipped]

theorem SuiteEntry.mapTexts_congr {s : SuiteEntry σ} (g : σ → τ)
    (h : ∀ w ∈ s.texts, f w.1 w.2 = f' w.1 w.2) :
    s.mapTexts f g = s.mapTexts f' g := by
  obtain ⟨hname, hcases⟩ := List.forall_mem_cons.1 h
  have hcases : s.cases.map (CaseEntry.mapTexts f g) = s.cases.map (CaseEntry.mapTexts f' g) :=
    List.map_congr_left fun c hc =>
      CaseEntry.mapTexts_congr g fun w hw => hcases w (List.mem_flatMap.2 ⟨c, hc, hw⟩)
  simp only [mapTexts, hname, hcases]

theorem Transcript.mapTexts_congr {t : Transcript σ} (g : σ → τ)
    (h : ∀ w ∈ t.texts, f w.1 w.2 = f' w.1 w.2) :
    t.mapTexts f g = t.mapTexts f' g := by
  obtain ⟨hname, hsuites⟩ := List.forall_mem_cons.1 h
  have hsuites : t.suites.map (SuiteEntry.mapTexts f g) = t.suites.map (SuiteEntry.mapTexts f' g) :=
    List.map_congr_left fun s hs =>
      SuiteEntry.mapTexts_congr g fun w hw => hsuites w (List.mem_flatMap.2 ⟨s, hs, hw⟩)
  simp only [mapTexts, hname, hsuites]

/-- **Two changes come to the same just when they agree on every text.** -/
theorem Transcript.mapTexts_eq_iff {t : Transcript σ} (g : σ → τ) :
    t.mapTexts f g = t.mapTexts f' g ↔ ∀ w ∈ t.texts, f w.1 w.2 = f' w.1 w.2 := by
  constructor
  · intro h w hw
    have htexts : t.texts.map f.on = t.texts.map f'.on := by
      rw [← texts_mapTexts f g, ← texts_mapTexts f' g, h]
    exact (Prod.mk.inj (List.map_inj_left.1 htexts w hw)).2
  · exact mapTexts_congr g

end TestOrchestrator
