import TestOrchestrator.Proofs.Markup.Reader
import TestOrchestrator.Proofs.ReadBack.Digits
/-!
# The document of a report

* `Adds cs attrs` says that a text adds attributes to a tag, and `Fills cs ns` that a text adds
  nodes to an element, wherever it stands.
* `Markup.document r` is the tree of a report's document.
* `read?_xml`: the text of a report is read as that tree, so its texts cannot be taken for markup.
-/

namespace TestOrchestrator.Markup

open Decimal

variable {m : Mode} {t : Tag} {ns content : List Node} {fs : List Frame}
  {content? : Option (List Node)}
  {cs ds : List Char} {name : String} {attrs more : Attributes}

/-! ## Texts that add attributes -/

/-- The tag with more attributes. -/
def Tag.with (t : Tag) (attrs : Attributes) : Tag := { t with attrs := t.attrs ++ attrs }

/-- A text adds attributes to the tag that it stands in. -/
def Adds (cs : List Char) (attrs : Attributes) : Prop :=
  ∀ ⦃m t⦄ ns fs, Behind m t → ∃ m', Behind m' (t.with attrs) ∧
    run ⟨m, ns, fs⟩ cs = some ⟨m', ns, fs⟩

theorem Adds.nil : Adds [] [] := by
  intro m t ns fs h
  refine ⟨m, ?_, rfl⟩
  rw [Tag.with, List.append_nil]
  exact h

theorem Adds.append (h : Adds cs attrs) (h' : Adds ds more) : Adds (cs ++ ds) (attrs ++ more) := by
  intro m t ns fs hm
  obtain ⟨m', hm', hrun⟩ := h ns fs hm
  obtain ⟨m'', hm'', hrun'⟩ := h' ns fs hm'
  refine ⟨m'', ?_, run_append hrun hrun'⟩
  rw [Tag.with, ← List.append_assoc]
  exact hm''

/-- What markup keeps of a text. -/
def printable (s : String) : String := String.ofList (kept s.toList)

theorem adds_rawAttr (hkey : IsName name) (cs : List Char) :
    Adds (Xml.rawAttr name (Xml.escape cs)) [(name, String.ofList (kept cs))] := by
  intro m t ns fs h
  have hpush : t.push name.toList (kept cs) = t.with [(name, String.ofList (kept cs))] := by
    rw [Tag.push, String.ofList_toList, Tag.with]
  refine ⟨_, ?_, h.run_rawAttr hkey cs⟩
  rw [hpush]
  exact .tag _

theorem adds_attr (hkey : IsName name) (value : String) :
    Adds (Xml.attr name value) [(name, printable value)] :=
  adds_rawAttr hkey value.toList

/-- A value that is shown as it is. -/
theorem adds_plain (hkey : IsName name) (h : Plain cs) :
    Adds (Xml.rawAttr name cs) [(name, String.ofList cs)] := by
  have hadds := adds_rawAttr hkey cs
  rw [h.escape_eq, h.kept_eq] at hadds
  exact hadds

/-! ## Plain values -/

theorem plain_of_isDigit (h : ∀ c ∈ cs, c.isDigit = true) : Plain cs := by
  intro c hc
  have hdigit := h c hc
  constructor
  · have hrange := toNat_of_isDigit hdigit
    omega
  · intro hmem
    simp only [List.mem_cons, List.not_mem_nil, or_false] at hmem
    rcases hmem with rfl | rfl | rfl | rfl | rfl <;> cases hdigit

theorem plain_digitsOf (n : Nat) : Plain (digitsOf n) :=
  plain_of_isDigit fun _ => isDigit_of_mem_digitsOf

theorem plain_zeros (k : Nat) : Plain (List.replicate k '0') := by
  intro c hc
  rw [List.eq_of_mem_replicate hc]
  decide

theorem plain_threePlaces (d : Duration) : Plain d.threePlaces.toList := by
  have hpoint : Plain ['.'] := by decide
  unfold Duration.threePlaces
  split
  · simp only [places, String.toList_ofList]
    exact (plain_digitsOf _).append (hpoint.cons ((plain_zeros _).append (plain_digitsOf _)))
  · exact nofun

theorem plain_padded (width n : Nat) : Plain (Timestamp.padded width n) :=
  (plain_zeros _).append (plain_digitsOf n)

theorem plain_render (t : Timestamp) : Plain t.render.toList := by
  have hminus : Plain ['-'] := by decide
  have hplus : Plain ['+'] := by decide
  have hcolon : Plain [':'] := by decide
  have hpoint : Plain ['.'] := by decide
  have hbetween : Plain ['T'] := by decide
  have hend : Plain ['Z'] := by decide
  have hyear : Plain (Timestamp.yearText t.year) := by
    unfold Timestamp.yearText
    split
    · exact plain_padded 4 _
    · split
      · exact hminus.cons (plain_padded 4 _)
      · exact hplus.cons (plain_padded 4 _)
  have hdate := (hyear.append (hminus.cons (plain_padded 2 t.month))).append
    (hminus.cons (plain_padded 2 t.day))
  have hminute := (hdate.append (hbetween.cons (plain_padded 2 t.hour))).append
    (hcolon.cons (plain_padded 2 t.minute))
  unfold Timestamp.render
  rw [String.toList_ofList]
  exact ((hminute.append (hcolon.cons (plain_padded 2 _))).append
    (hpoint.cons (plain_padded 3 _))).append hend

/-- A number in decimal digits. -/
def decimal (n : Nat) : String := String.ofList (digitsOf n)

theorem adds_number (hkey : IsName name) (n : Nat) : Adds (Xml.number name n) [(name, decimal n)] :=
  adds_plain hkey (plain_digitsOf n)

theorem adds_seconds (hkey : IsName name) (d : Duration) :
    Adds (Xml.seconds name d) [(name, d.threePlaces)] := by
  have hadds := adds_plain hkey (plain_threePlaces d)
  rw [String.ofList_toList] at hadds
  exact hadds

theorem adds_moment (hkey : IsName name) (t : Timestamp) :
    Adds (Xml.moment name t) [(name, t.render)] := by
  have hadds := adds_plain hkey (plain_render t)
  rw [String.ofList_toList] at hadds
  exact hadds

/-! ## Texts that add nodes -/

/-- A text adds nodes to the element that it stands in. -/
def Fills (cs : List Char) (content : List Node) : Prop :=
  ∀ ns fs, run ⟨.text, ns, fs⟩ cs = some ⟨.text, ns ++ content, fs⟩

theorem Fills.nil : Fills [] [] := by
  intro ns fs
  rw [List.append_nil]
  rfl

theorem Fills.append (h : Fills cs content) (h' : Fills ds ns) :
    Fills (cs ++ ds) (content ++ ns) := by
  intro before fs
  rw [← List.append_assoc]
  exact run_append (h before fs) (h' (before ++ content) fs)

theorem Fills.flatMap {α : Type} {text : α → List Char} {nodes : α → List Node} {as : List α}
    (h : ∀ a, Fills (text a) (nodes a)) : Fills (as.flatMap text) (as.flatMap nodes) := by
  induction as with
  | nil => exact .nil
  | cons a as ih => exact (h a).append ih

/-- The nodes of a text. -/
def textNodes (s : String) : List Node := (kept s.toList).map .char

theorem fills_escape (s : String) : Fills (Xml.escape s.toList) (textNodes s) :=
  fun _ _ => run_escape .text s.toList

theorem fills_plain (h : Plain cs) : Fills cs (cs.map .char) := by
  intro ns fs
  have hrun := run_escape (s := ⟨.text, ns, fs⟩) .text cs
  rw [h.escape_eq, h.kept_eq] at hrun
  exact hrun

theorem fills_feed : Fills ['\n'] [.char '\n'] := fun _ _ => rfl

/-- A text ends a tag, and with it the element. -/
def Ends (cs : List Char) (name : String) (content : Option (List Node)) : Prop :=
  ∀ ⦃m t⦄ ns fs, Behind m t → t.name = name.toList → (t.attrs.map (·.1)).Nodup →
    run ⟨m, ns, fs⟩ cs = some ⟨.text, ns ++ [.element name t.attrs content], fs⟩

theorem ends_emptyEnd : Ends Xml.emptyEnd name none := by
  intro m t ns fs h hname hkeys
  rw [h.run_emptyEnd hkeys, hname, String.ofList_toList]

theorem Fills.ends (h : Fills cs content) (hname : IsName name) :
    Ends ('>' :: cs ++ Xml.closeTag name) name (some content) := by
  intro m t ns fs hm ht hkeys
  have hcontent : run ⟨.text, [], ⟨t, ns⟩ :: fs⟩ cs = some ⟨.text, content, ⟨t, ns⟩ :: fs⟩ :=
    h [] (⟨t, ns⟩ :: fs)
  exact run_append (run_append (hm.run_enter hkeys) hcontent) (run_closeTag hname ht)

theorem Ends.fills (h : Ends ds name content?) (hname : IsName name) (hattrs : Adds cs attrs)
    (hkeys : (attrs.map (·.1)).Nodup) :
    Fills (Xml.openTag name ++ cs ++ ds) [.element name attrs content?] := by
  intro ns fs
  obtain ⟨m', hm', hrun⟩ := hattrs ns fs (.opening name.toList)
  exact run_append (run_append (run_openTag hname) hrun) (h ns fs hm' rfl hkeys)

/-- An element on a line of its own. -/
def line (level : Nat) (node : Node) : List Node :=
  (Xml.indent level).map .char ++ [node, .char '\n']

theorem plain_indent (level : Nat) : Plain (Xml.indent level) := by
  intro c hc
  rw [List.eq_of_mem_replicate hc]
  decide

theorem Ends.fills_line (h : Ends ds name content?) (hname : IsName name) (hattrs : Adds cs attrs)
    (hkeys : (attrs.map (·.1)).Nodup) (level : Nat) :
    Fills (Xml.indent level ++ Xml.openTag name ++ cs ++ ds ++ ['\n'])
      (line level (.element name attrs content?)) := by
  have hfills := (fills_plain (plain_indent level)).append
    ((h.fills hname hattrs hkeys).append fills_feed)
  simp only [List.append_assoc] at hfills ⊢
  exact hfills

/-! ## The parts of a report -/

def countAttrs (c : Counts) : Attributes :=
  [("tests", decimal c.total), ("skipped", decimal c.skipped), ("failures", decimal c.failures),
    ("errors", decimal c.errors)]

def noteNode (tag : String) (n : Note) : Node :=
  .element tag [("message", printable n.message)] (n.detail.map textNodes)

def noteNodes (tag : String) (n : Option Note) : List Node :=
  n.elim [] fun n => line 3 (noteNode tag n)

def outputNodes (text : Option String) : List Node :=
  text.elim [] fun text => line 3 (.element "system-out" [] (some (textNodes text)))

def caseNodes (c : Case) : List Node :=
  noteNodes "failure" c.failure ++ noteNodes "error" c.error ++ noteNodes "skipped" c.skipped ++
    outputNodes c.systemOut

/-- Whether nothing but its time is known of a case. -/
def isBare (c : Case) : Bool :=
  c.failure.isNone && c.error.isNone && c.skipped.isNone && c.systemOut.isNone

def caseAttrs (c : Case) : Attributes :=
  [("name", printable c.name)] ++
    (if c.classname = "" then [] else [("classname", printable c.classname)]) ++
    [("time", c.time.threePlaces)]

/-- The element of a case. -/
def caseNode (c : Case) : Node :=
  .element "testcase" (caseAttrs c)
    (if isBare c then none else some (.char '\n' :: caseNodes c ++ (Xml.indent 2).map .char))

def suiteAttrs (s : Suite) : Attributes :=
  [("name", printable s.name)] ++ countAttrs s.counts ++
    s.timestamp.elim [] (fun t => [("timestamp", t.render)]) ++ [("time", s.time.threePlaces)]

/-- The element of a suite. -/
def suiteNode (s : Suite) : Node :=
  .element "testsuite" (suiteAttrs s)
    (if s.cases.isEmpty then none
    else some (.char '\n' :: s.cases.flatMap (fun c => line 2 (caseNode c)) ++
      (Xml.indent 1).map .char))

def reportAttrs (r : Report) : Attributes :=
  [("name", printable r.name)] ++ countAttrs r.counts ++ [("timestamp", r.started.render)] ++
    [("time", r.time.threePlaces)]

/-- The tree of a report's document. -/
def document (r : Report) : Node :=
  .element "testsuites" (reportAttrs r)
    (if r.suites.isEmpty then none
    else some (.char '\n' :: r.suites.flatMap fun s => line 1 (suiteNode s)))

/-! ## Their texts -/

theorem adds_counts (c : Counts) : Adds (Xml.counts c) (countAttrs c) :=
  (((adds_number (by decide) _).append (adds_number (by decide) _)).append
    (adds_number (by decide) _)).append
    (adds_number (by decide) _)

theorem fills_note {tag : String} (htag : IsName tag) (n : Note) :
    Fills (Xml.note tag n) (line 3 (noteNode tag n)) := by
  have hattrs := adds_attr (show IsName "message" by decide) n.message
  have hkeys : ([("message", printable n.message)].map (·.1)).Nodup := by simp
  obtain ⟨message, detail⟩ := n
  cases detail with
  | none => exact ends_emptyEnd.fills_line htag hattrs hkeys 3
  | some detail => exact ((fills_escape detail).ends htag).fills_line htag hattrs hkeys 3

theorem fills_note? {tag : String} (htag : IsName tag) (n : Option Note) :
    Fills (Xml.note? tag n) (noteNodes tag n) := by
  cases n with
  | none => exact .nil
  | some n => exact fills_note htag n

theorem fills_output (text : Option String) :
    Fills (text.elim [] Xml.output) (outputNodes text) := by
  cases text with
  | none => exact .nil
  | some text =>
    have hname : IsName "system-out" := by decide
    have hline := ((fills_escape text).ends hname).fills_line hname .nil List.nodup_nil 3
    rw [List.append_nil] at hline
    exact hline

theorem fills_caseContent (c : Case) : Fills (Xml.caseContent c) (caseNodes c) :=
  (((fills_note? (by decide) _).append (fills_note? (by decide) _)).append
    (fills_note? (by decide) _)).append
    (fills_output _)

theorem fills_case (c : Case) : Fills (Xml.case c) (line 2 (caseNode c)) := by
  have hname : IsName "testcase" := by decide
  have hclass : Adds (if c.classname = "" then [] else Xml.attr "classname" c.classname)
      (if c.classname = "" then [] else [("classname", printable c.classname)]) := by
    split
    · exact .nil
    · exact adds_attr (by decide) c.classname
  have hattrs : Adds _ (caseAttrs c) :=
    ((adds_attr (by decide) c.name).append hclass).append (adds_seconds (by decide) c.time)
  have hkeys : ((caseAttrs c).map (·.1)).Nodup := by
    unfold caseAttrs
    split <;> simp
  have htext : Xml.case c = Xml.indent 2 ++ Xml.openTag "testcase" ++ (Xml.attr "name" c.name ++
      (if c.classname = "" then [] else Xml.attr "classname" c.classname) ++
        Xml.seconds "time" c.time) ++
        (if isBare c then Xml.emptyEnd
        else '>' :: ('\n' :: Xml.caseContent c ++ Xml.indent 2) ++ Xml.closeTag "testcase") ++
          ['\n'] := by
    simp only [Xml.case, isBare, List.append_assoc, List.cons_append]
  have hcontent : Fills ('\n' :: Xml.caseContent c ++ Xml.indent 2)
      (.char '\n' :: caseNodes c ++ (Xml.indent 2).map .char) :=
    (fills_feed.append (fills_caseContent c)).append (fills_plain (plain_indent 2))
  rw [htext, caseNode]
  by_cases hbare : isBare c = true
  · rw [if_pos hbare, if_pos hbare]
    exact ends_emptyEnd.fills_line hname hattrs hkeys 2
  · rw [if_neg hbare, if_neg hbare]
    exact (hcontent.ends hname).fills_line hname hattrs hkeys 2

theorem fills_suite (s : Suite) : Fills (Xml.suite s) (line 1 (suiteNode s)) := by
  have hname : IsName "testsuite" := by decide
  have htime : Adds (s.timestamp.elim [] (Xml.moment "timestamp"))
      (s.timestamp.elim [] fun t => [("timestamp", t.render)]) := by
    cases s.timestamp with
    | none => exact .nil
    | some t => exact adds_moment (by decide) t
  have hattrs : Adds _ (suiteAttrs s) :=
    (((adds_attr (by decide) s.name).append (adds_counts s.counts)).append htime).append
      (adds_seconds (by decide) s.time)
  have hkeys : ((suiteAttrs s).map (·.1)).Nodup := by
    unfold suiteAttrs
    cases s.timestamp <;> simp [countAttrs]
  have htext : Xml.suite s = Xml.indent 1 ++ Xml.openTag "testsuite" ++ (Xml.attr "name" s.name ++
      Xml.counts s.counts ++ s.timestamp.elim [] (Xml.moment "timestamp") ++
        Xml.seconds "time" s.time) ++
        (if s.cases.isEmpty then Xml.emptyEnd
        else '>' :: ('\n' :: s.cases.flatMap Xml.case ++ Xml.indent 1) ++
          Xml.closeTag "testsuite") ++ ['\n'] := by
    simp only [Xml.suite, List.append_assoc, List.cons_append]
  have hcontent : Fills ('\n' :: s.cases.flatMap Xml.case ++ Xml.indent 1)
      (.char '\n' :: s.cases.flatMap (fun c => line 2 (caseNode c)) ++ (Xml.indent 1).map .char) :=
    (fills_feed.append (Fills.flatMap fills_case)).append (fills_plain (plain_indent 1))
  rw [htext, suiteNode]
  by_cases hempty : s.cases.isEmpty = true
  · rw [if_pos hempty, if_pos hempty]
    exact ends_emptyEnd.fills_line hname hattrs hkeys 1
  · rw [if_neg hempty, if_neg hempty]
    exact (hcontent.ends hname).fills_line hname hattrs hkeys 1

/-- **The text of a report is read as the tree of its document.** -/
theorem read?_xml (r : Report) : read? r.xml = some (document r) := by
  have hname : IsName "testsuites" := by decide
  have hattrs : Adds _ (reportAttrs r) :=
    (((adds_attr (by decide) r.name).append (adds_counts r.counts)).append
      (adds_moment (by decide) r.started)).append (adds_seconds (by decide) r.time)
  have hkeys : ((reportAttrs r).map (·.1)).Nodup := by
    unfold reportAttrs
    simp [countAttrs]
  have hcontent : Fills ('\n' :: r.suites.flatMap Xml.suite)
      (.char '\n' :: r.suites.flatMap fun s => line 1 (suiteNode s)) :=
    fills_feed.append (Fills.flatMap fills_suite)
  have hfills : Fills (Xml.openTag "testsuites" ++ (Xml.attr "name" r.name ++ Xml.counts r.counts ++
      Xml.moment "timestamp" r.started ++ Xml.seconds "time" r.time) ++
        (if r.suites.isEmpty then Xml.emptyEnd
        else '>' :: ('\n' :: r.suites.flatMap Xml.suite) ++ Xml.closeTag "testsuites"))
          [document r] := by
    rw [document]
    by_cases hempty : r.suites.isEmpty = true
    · rw [if_pos hempty, if_pos hempty]
      exact ends_emptyEnd.fills hname hattrs hkeys
    · rw [if_neg hempty, if_neg hempty]
      exact (hcontent.ends hname).fills hname hattrs hkeys
  have htext : r.xml = Xml.declaration.toList ++
      (Xml.openTag "testsuites" ++ (Xml.attr "name" r.name ++
      Xml.counts r.counts ++ Xml.moment "timestamp" r.started ++ Xml.seconds "time" r.time) ++
        (if r.suites.isEmpty then Xml.emptyEnd
        else '>' :: ('\n' :: r.suites.flatMap Xml.suite) ++ Xml.closeTag "testsuites")) := by
    simp only [Report.xml, List.append_assoc, List.cons_append]
  rw [htext, read?, List.take_left', List.drop_left', if_pos rfl, hfills [] [], Option.bind_some]
  · rfl
  · rfl
  · rfl

end TestOrchestrator.Markup
