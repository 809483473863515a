import TestOrchestrator.Proofs.ReadBack.Encoding
import TestOrchestrator.Proofs.Texts
/-!
# The characters of a document

* `Markup.isAllowed c` says that XML 1.0 lets a document have the character `c`, and
  `Markup.forbidden cs` are the characters of a text that it does not.
* `isAllowed_iff`: markup drops all that is refused but the two noncharacters `U+FFFE` and `U+FFFF`.
* `forbidden_xml`: what is refused of a document is just the noncharacters of its report's texts.
* `renderXml_allowed_iff`: a document has allowed characters only just when its texts have no
  noncharacters.
-/

namespace TestOrchestrator

namespace Markup

open Decimal

variable {c : Char} {cs ds : List Char} {name : String}

/-- The characters that XML 1.0 lets a document have. -/
def isAllowed (c : Char) : Bool :=
  c.toNat = 0x9 || c.toNat = 0xA || c.toNat = 0xD || (0x20 ≤ c.toNat && c.toNat ≤ 0xD7FF) ||
    (0xE000 ≤ c.toNat && c.toNat ≤ 0xFFFD) || (0x10000 ≤ c.toNat && c.toNat ≤ 0x10FFFF)

/-- The last two characters of 16 bits. -/
def isNoncharacter (c : Char) : Bool := c.toNat = 0xFFFE || c.toNat = 0xFFFF

/-- The characters of a text that no document may have. -/
def forbidden (cs : List Char) : List Char := cs.filter fun c => !isAllowed c

/-- The noncharacters of texts, in order. -/
def noncharacters (ws : List (Part × String)) : List Char :=
  ws.flatMap fun w => w.2.toList.filter isNoncharacter

theorem isAllowed_iff (c : Char) : isAllowed c = true ↔
    (0x20 ≤ c.toNat ∨ c.toNat = 0x9 ∨ c.toNat = 0xA ∨ c.toNat = 0xD) ∧
      isNoncharacter c = false := by
  have hvalid := Text.Utf8.toNat_valid c
  simp only [isAllowed, isNoncharacter, Bool.or_eq_true, Bool.and_eq_true, decide_eq_true_eq,
    Bool.or_eq_false_iff, decide_eq_false_iff_not]
  omega

theorem isAllowed_of_range (hlow : 0x20 ≤ c.toNat) (hhigh : c.toNat < 0x80) :
    isAllowed c = true := by
  refine (isAllowed_iff c).2 ⟨.inl hlow, ?_⟩
  simp only [isNoncharacter, Bool.or_eq_false_iff, decide_eq_false_iff_not]
  omega

/-! ## Pieces of documents -/

@[simp] theorem forbidden_nil : forbidden [] = [] := rfl

@[simp] theorem forbidden_append (cs ds : List Char) :
    forbidden (cs ++ ds) = forbidden cs ++ forbidden ds :=
  List.filter_append _ _

theorem forbidden_eq_nil_iff : forbidden cs = [] ↔ ∀ c ∈ cs, isAllowed c = true := by
  simp only [forbidden, List.filter_eq_nil_iff, Bool.not_eq_true', Bool.not_eq_false]

@[simp] theorem forbidden_cons (h : isAllowed c = true) (cs : List Char) :
    forbidden (c :: cs) = forbidden cs := by
  have hc : forbidden [c] = [] := forbidden_eq_nil_iff.2 (List.forall_mem_singleton.2 h)
  rw [← List.singleton_append, forbidden_append, hc, List.nil_append]

theorem forbidden_escapeChar (c : Char) :
    forbidden (Xml.escapeChar c) = [c].filter isNoncharacter := by
  unfold Xml.escapeChar
  split
  iterate 8 rfl
  by_cases hsmall : c.toNat < 0x20
  · have hchar : isNoncharacter c = false := by
      simp only [isNoncharacter, Bool.or_eq_false_iff, decide_eq_false_iff_not]
      omega
    rw [if_pos hsmall, List.filter_cons, hchar]
    rfl
  · have hkept : (!isAllowed c) = isNoncharacter c := by
      rw [Bool.not_eq_eq_eq_not, Bool.eq_iff_iff, isAllowed_iff, Bool.not_eq_true']
      exact and_iff_right (.inl (Nat.not_lt.1 hsmall))
    rw [if_neg hsmall, forbidden, List.filter_cons, List.filter_cons, hkept]
    rfl

/-- **Of an escaped text, just the noncharacters are refused.** -/
@[simp] theorem forbidden_escape (cs : List Char) :
    forbidden (Xml.escape cs) = cs.filter isNoncharacter := by
  induction cs with
  | nil => rfl
  | cons c cs ih =>
    rw [Xml.escape, List.flatMap_cons, forbidden_append, forbidden_escapeChar, ← Xml.escape, ih,
      ← List.filter_append, List.singleton_append]

/-! ### Numbers -/

@[simp] theorem forbidden_digitsOf (n : Nat) : forbidden (digitsOf n) = [] := by
  refine forbidden_eq_nil_iff.2 fun c h => ?_
  have hrange := toNat_of_isDigit (isDigit_of_mem_digitsOf h)
  exact isAllowed_of_range (by omega) (by omega)

@[simp] theorem forbidden_replicate (k : Nat) (h : isAllowed c = true) :
    forbidden (List.replicate k c) = [] :=
  forbidden_eq_nil_iff.2 fun _ hmem => List.eq_of_mem_replicate hmem ▸ h

@[simp] theorem forbidden_threePlaces (d : Duration) : forbidden d.threePlaces.toList = [] := by
  unfold Duration.threePlaces
  split
  · simp (disch := decide) only [places, String.toList_ofList, forbidden_append, forbidden_cons,
      forbidden_digitsOf, forbidden_replicate, List.nil_append]
  · rfl

@[simp] theorem forbidden_padded (width n : Nat) : forbidden (Timestamp.padded width n) = [] := by
  simp (disch := decide) only [Timestamp.padded, forbidden_append, forbidden_digitsOf,
    forbidden_replicate, List.nil_append]

@[simp] theorem forbidden_render (t : Timestamp) : forbidden t.render.toList = [] := by
  have hyear : forbidden (Timestamp.yearText t.year) = [] := by
    unfold Timestamp.yearText
    split
    · exact forbidden_padded 4 _
    · split <;> exact (forbidden_cons (by decide) _).trans (forbidden_padded 4 _)
  simp (disch := decide) only [Timestamp.render, String.toList_ofList, List.cons_append,
    List.append_assoc, forbidden_append, forbidden_cons, forbidden_nil, forbidden_padded, hyear,
    List.nil_append]

/-! ### Tags -/

@[simp] theorem forbidden_rawAttr (h : forbidden name.toList = []) (value : List Char) :
    forbidden (Xml.rawAttr name value) = forbidden value := by
  simp (disch := decide) only [Xml.rawAttr, List.cons_append, forbidden_append, forbidden_cons,
    forbidden_nil, h, List.nil_append, List.append_nil]

@[simp] theorem forbidden_attr (h : forbidden name.toList = []) (value : String) :
    forbidden (Xml.attr name value) = value.toList.filter isNoncharacter := by
  rw [Xml.attr, forbidden_rawAttr h, forbidden_escape]

@[simp] theorem forbidden_number (h : forbidden name.toList = []) (n : Nat) :
    forbidden (Xml.number name n) = [] := by
  rw [Xml.number, forbidden_rawAttr h, forbidden_digitsOf]

@[simp] theorem forbidden_seconds (h : forbidden name.toList = []) (d : Duration) :
    forbidden (Xml.seconds name d) = [] := by
  rw [Xml.seconds, forbidden_rawAttr h, forbidden_threePlaces]

@[simp] theorem forbidden_moment (h : forbidden name.toList = []) (t : Timestamp) :
    forbidden (Xml.moment name t) = [] := by
  rw [Xml.moment, forbidden_rawAttr h, forbidden_render]

@[simp] theorem forbidden_counts (c : Counts) : forbidden (Xml.counts c) = [] := by
  simp (disch := decide) only [Xml.counts, forbidden_append, forbidden_number, List.nil_append]

@[simp] theorem forbidden_indent (level : Nat) : forbidden (Xml.indent level) = [] :=
  forbidden_replicate _ (by decide)

@[simp] theorem forbidden_openTag (h : forbidden name.toList = []) :
    forbidden (Xml.openTag name) = [] := by
  rw [Xml.openTag, forbidden_cons (by decide), h]

@[simp] theorem forbidden_closeTag (h : forbidden name.toList = []) :
    forbidden (Xml.closeTag name) = [] := by
  simp (disch := decide) only [Xml.closeTag, List.cons_append, forbidden_append, forbidden_cons,
    forbidden_nil, h, List.nil_append]

@[simp] theorem forbidden_emptyEnd : forbidden Xml.emptyEnd = [] := rfl

/-! ## Parts of a report -/

@[simp] theorem noncharacters_nil : noncharacters [] = [] := rfl

@[simp] theorem noncharacters_append (ws ws' : List (Part × String)) :
    noncharacters (ws ++ ws') = noncharacters ws ++ noncharacters ws' := List.flatMap_append

@[simp] theorem noncharacters_cons (p : Part) (s : String) (ws : List (Part × String)) :
    noncharacters ((p, s) :: ws) = s.toList.filter isNoncharacter ++ noncharacters ws :=
  List.flatMap_cons

theorem forbidden_flatMap {α : Type} {text : α → List Char} {ws : α → List (Part × String)}
    (h : ∀ a, forbidden (text a) = noncharacters (ws a)) (as : List α) :
    forbidden (as.flatMap text) = noncharacters (as.flatMap ws) := by
  induction as with
  | nil => rfl
  | cons a as ih =>
    rw [List.flatMap_cons, List.flatMap_cons, forbidden_append, noncharacters_append, h, ih]

theorem forbidden_note? (h : forbidden name.toList = []) (n : Option Note) :
    forbidden (Xml.note? name n) = noncharacters (Note.textsOf n) := by
  cases n with
  | none => rfl
  | some n =>
    obtain ⟨message, detail⟩ := n
    show forbidden (Xml.note name _) = _
    cases detail <;> simp (disch := first | decide | assumption) [Xml.note, Note.textsOf,
      Note.texts]

theorem forbidden_output (text : Option String) :
    forbidden (text.elim [] Xml.output) =
      noncharacters (text.toList.map fun s => (.content, s)) := by
  cases text <;> simp (disch := decide) [Xml.output]

theorem forbidden_caseContent (c : Case) : forbidden (Xml.caseContent c) =
    noncharacters (Note.textsOf c.failure ++ Note.textsOf c.error ++ Note.textsOf c.skipped ++
      c.systemOut.toList.map fun s => (.content, s)) := by
  simp (disch := decide) [Xml.caseContent, forbidden_note?, forbidden_output]

theorem caseContent_of_isBare {c : Case} (h : isBare c = true) : Xml.caseContent c = [] := by
  simp only [isBare, Bool.and_eq_true, Option.isNone_iff_eq_none] at h
  obtain ⟨⟨⟨hfailure, herror⟩, hskipped⟩, hout⟩ := h
  rw [Xml.caseContent, hfailure, herror, hskipped, hout]
  rfl

theorem forbidden_case (c : Case) : forbidden (Xml.case c) = noncharacters c.entry.texts := by
  have hclass : forbidden (if c.classname = "" then [] else Xml.attr "classname" c.classname) =
      c.classname.toList.filter isNoncharacter := by
    split
    · rename_i hempty
      rw [hempty]
      rfl
    · exact forbidden_attr (by decide) c.classname
  have hend : forbidden (if c.failure.isNone && c.error.isNone && c.skipped.isNone &&
      c.systemOut.isNone then
        Xml.emptyEnd
      else '>' :: '\n' :: Xml.caseContent c ++ Xml.indent 2 ++ Xml.closeTag "testcase") =
        forbidden (Xml.caseContent c) := by
    split
    · rename_i hbare
      rw [caseContent_of_isBare hbare]
      rfl
    · simp (disch := decide)
  simp (disch := decide) only [Xml.case, forbidden_append, hclass, hend, forbidden_indent,
    forbidden_openTag, forbidden_attr, forbidden_seconds, forbidden_cons, forbidden_nil,
    forbidden_caseContent, List.append_nil, List.nil_append, CaseEntry.texts, Case.entry,
    noncharacters_cons]
  exact List.append_assoc _ _ _

theorem forbidden_suite (s : Suite) : forbidden (Xml.suite s) = noncharacters s.entry.texts := by
  have htime : forbidden (s.timestamp.elim [] (Xml.moment "timestamp")) = [] := by
    cases s.timestamp with
    | none => rfl
    | some t => exact forbidden_moment (by decide) t
  have hcases : forbidden (s.cases.flatMap Xml.case) =
      noncharacters (s.cases.flatMap fun c => c.entry.texts) :=
    forbidden_flatMap forbidden_case s.cases
  have hend : forbidden (if s.cases.isEmpty then Xml.emptyEnd
      else '>' :: '\n' :: s.cases.flatMap Xml.case ++ Xml.indent 1 ++ Xml.closeTag "testsuite") =
        noncharacters (s.cases.flatMap fun c => c.entry.texts) := by
    split
    · rename_i hempty
      rw [List.isEmpty_iff.1 hempty]
      rfl
    · simp (disch := decide) [hcases]
  simp (disch := decide) only [Xml.suite, forbidden_append, htime, hend, forbidden_indent,
    forbidden_openTag, forbidden_attr, forbidden_counts, forbidden_seconds, forbidden_cons,
    forbidden_nil, List.append_nil, List.nil_append, SuiteEntry.texts, Suite.entry,
    noncharacters_cons, List.flatMap_map]

/-- **What is refused of a document is just the noncharacters of its texts**, in their order. -/
theorem forbidden_xml (r : Report) : forbidden r.xml = noncharacters r.texts := by
  have hsuites : forbidden (r.suites.flatMap Xml.suite) =
      noncharacters (r.suites.flatMap fun s => s.entry.texts) :=
    forbidden_flatMap forbidden_suite r.suites
  have hend : forbidden (if r.suites.isEmpty then Xml.emptyEnd
      else '>' :: '\n' :: r.suites.flatMap Xml.suite ++ Xml.closeTag "testsuites") =
        noncharacters (r.suites.flatMap fun s => s.entry.texts) := by
    split
    · rename_i hempty
      rw [List.isEmpty_iff.1 hempty]
      rfl
    · simp (disch := decide) [hsuites]
  have hdeclaration : forbidden Xml.declaration.toList = [] := by decide
  simp (disch := decide) only [Report.xml, forbidden_append, hdeclaration, hend, forbidden_openTag,
    forbidden_attr, forbidden_counts, forbidden_moment, forbidden_seconds, List.append_nil,
    List.nil_append, Report.texts, Transcript.texts, Report.transcript, noncharacters_cons,
    List.flatMap_map]

end Markup

namespace Report

open Markup

/-- **A document has allowed characters only just when its texts have no noncharacters.** -/
theorem renderXml_allowed_iff (r : Report) : (∀ c ∈ r.renderXml.toList, isAllowed c = true) ↔
    ∀ w ∈ r.texts, ∀ c ∈ w.2.toList, isNoncharacter c = false := by
  rw [renderXml, String.toList_ofList, ← forbidden_eq_nil_iff, forbidden_xml, noncharacters,
    List.flatMap_eq_nil_iff]
  simp only [List.filter_eq_nil_iff, Bool.not_eq_true]

/-- A document shows the noncharacters of a text. -/
theorem not_renderXml_allowed : ¬∀ r : Report, r.finalized = true → ∀ c ∈ r.renderXml.toList,
    isAllowed c = true := by
  intro h
  have hallowed := h (ofFailure "ping" "\uFFFE") rfl
  rw [renderXml, String.toList_ofList, ← forbidden_eq_nil_iff, forbidden_xml] at hallowed
  have hshown : noncharacters (ofFailure "ping" "\uFFFE").texts ≠ [] := by decide +kernel
  exact hshown hallowed

end Report

end TestOrchestrator
