import TestOrchestrator.Proofs.Markup.Normalization
/-!
# Passes over documents

Before it looks at markup, a reader may go over a document and change characters in its texts.

* `Pass p f` says that a pass over documents leaves markup alone and changes texts by `f`.
* `Takes p g cs ds g'` says what such a pass makes of a piece of a document.
* `Pass.xml`: of a report's document, a pass makes the document of the report with its texts
  changed.
-/

namespace TestOrchestrator.Markup

variable {c : Char} {cs ds : List Char} {name : String}

/-- A pass over documents that leaves markup alone and changes texts by `f`. -/
structure Pass (p : Region → List Char → List Char) (f : Change) : Prop where
  nil : p .content [] = []
  content (c : Char) (cs : List Char) (hopen : c ≠ '<') (hreturn : c ≠ '\r') :
    p .content (c :: cs) = c :: p .content cs
  opens (cs : List Char) : p .content ('<' :: cs) = '<' :: p .tag cs
  tag (c : Char) (cs : List Char) (hc : c ∉ ['>', '"', '\'', '\r']) : p .tag (c :: cs) =
    c :: p .tag cs
  closes (cs : List Char) : p .tag ('>' :: cs) = '>' :: p .content cs
  value (s : String) (cs : List Char) (hs : Kept s) :
    p .tag ('"' :: (Xml.escape s.toList ++ '"' :: cs)) =
    '"' :: (Xml.escape (f .value s).toList ++ '"' :: p .tag cs)
  text (s : String) (cs : List Char) (hs : Kept s) : p .content (Xml.escape s.toList ++ '<' :: cs) =
    Xml.escape (f .content s).toList ++ '<' :: p .tag cs
  plain (s : String) (hs : Plain s.toList) : f .value s = s
  eq_empty_iff (s : String) : f .value s = "" ↔ s = ""

/-- A pass makes of a piece of a document another one, whatever follows, and is in another region
behind it. -/
def Takes (p : Region → List Char → List Char) (g : Region) (cs ds : List Char)
    (g' : Region) : Prop :=
  ∀ rest, p g (cs ++ rest) = ds ++ p g' rest

section Takes

variable {p : Region → List Char → List Char} {f : Change} {g g' g'' : Region} {cs' ds' : List Char}

theorem Takes.append (h : Takes p g cs ds g') (h' : Takes p g' cs' ds' g'') :
    Takes p g (cs ++ cs') (ds ++ ds') g'' := by
  intro rest
  rw [List.append_assoc, h, h', List.append_assoc]

theorem Takes.flatMap {α : Type} {text : α → List Char} {change : α → α} {as : List α}
    (h : ∀ a ∈ as, Takes p g (text a) (text (change a)) g) :
    Takes p g (as.flatMap text) ((as.map change).flatMap text) g := by
  induction as with
  | nil => exact fun _ => rfl
  | cons a as ih =>
    obtain ⟨ha, has⟩ := List.forall_mem_cons.1 h
    exact ha.append (ih has)

namespace Pass

variable (h : Pass p f)
include h

theorem takes_content (hcs : ∀ c ∈ cs, c ≠ '<' ∧ c ≠ '\r') : Takes p .content cs cs .content := by
  intro rest
  induction cs with
  | nil => rfl
  | cons c cs ih =>
    obtain ⟨⟨hopen, hreturn⟩, hcs⟩ := List.forall_mem_cons.1 hcs
    rw [List.cons_append, h.content c _ hopen hreturn, ih hcs, List.cons_append]

theorem takes_tag (hcs : ∀ c ∈ cs, c ∉ ['>', '"', '\'', '\r']) : Takes p .tag cs cs .tag := by
  intro rest
  induction cs with
  | nil => rfl
  | cons c cs ih =>
    obtain ⟨hc, hcs⟩ := List.forall_mem_cons.1 hcs
    rw [List.cons_append, h.tag c _ hc, ih hcs, List.cons_append]

theorem takes_name (hname : IsName name) : Takes p .tag name.toList name.toList .tag := by
  refine h.takes_tag fun c hc hmem => ?_
  have hchar := hname.2 c hc
  simp only [List.mem_cons, List.not_mem_nil, or_false] at hmem
  rcases hmem with rfl | rfl | rfl | rfl <;> cases hchar

/-- An attribute, its value given and taken as texts. -/
theorem takes_rawAttr (hname : IsName name) {s : String} (hs : Kept s) :
    Takes p .tag (Xml.rawAttr name (Xml.escape s.toList))
      (Xml.rawAttr name (Xml.escape (f .value s).toList)) .tag := by
  have hspace : ∀ c ∈ [' '], c ∉ ['>', '"', '\'', '\r'] := by simp
  have hbefore : Takes p .tag (' ' :: name.toList ++ ['=']) (' ' :: name.toList ++ ['=']) .tag :=
    ((h.takes_tag hspace).append (h.takes_name hname)).append (h.takes_tag (by simp))
  have hvalue : Takes p .tag ('"' :: Xml.escape s.toList ++ ['"'])
      ('"' :: Xml.escape (f .value s).toList ++ ['"']) .tag := by
    intro rest
    have htaken := h.value s rest hs
    simp only [List.cons_append, List.append_assoc]
    exact htaken
  have htaken := hbefore.append hvalue
  simp only [Xml.rawAttr, List.cons_append, List.append_assoc] at htaken ⊢
  exact htaken

theorem takes_attr (hname : IsName name) {s : String} (hs : Kept s) :
    Takes p .tag (Xml.attr name s) (Xml.attr name (f .value s)) .tag := h.takes_rawAttr hname hs

/-- An attribute that is no text. -/
theorem takes_plain (hname : IsName name) (hcs : Plain cs) :
    Takes p .tag (Xml.rawAttr name cs) (Xml.rawAttr name cs) .tag := by
  have hplain : Plain (String.ofList cs).toList := by rwa [String.toList_ofList]
  have htaken := h.takes_rawAttr hname hplain.kept
  rw [h.plain _ hplain, String.toList_ofList, hcs.escape_eq] at htaken
  exact htaken

theorem takes_number (hname : IsName name) (n : Nat) :
    Takes p .tag (Xml.number name n) (Xml.number name n) .tag :=
  h.takes_plain hname (plain_digitsOf n)

theorem takes_seconds (hname : IsName name) (d : Duration) :
    Takes p .tag (Xml.seconds name d) (Xml.seconds name d) .tag :=
  h.takes_plain hname (plain_threePlaces d)

theorem takes_moment (hname : IsName name) (t : Timestamp) :
    Takes p .tag (Xml.moment name t) (Xml.moment name t) .tag :=
  h.takes_plain hname (plain_render t)

theorem takes_counts (c : Counts) : Takes p .tag (Xml.counts c) (Xml.counts c) .tag :=
  (((h.takes_number (by decide) _).append (h.takes_number (by decide) _)).append
    (h.takes_number (by decide) _)).append
    (h.takes_number (by decide) _)

/-! ### Tags -/

theorem takes_indent (level : Nat) :
    Takes p .content (Xml.indent level) (Xml.indent level) .content := by
  refine h.takes_content fun c hc => ?_
  rw [List.eq_of_mem_replicate hc]
  decide

theorem takes_feed : Takes p .content ['\n'] ['\n'] .content := h.takes_content (by simp)

theorem takes_open : Takes p .content ['<'] ['<'] .tag := h.opens

theorem takes_close : Takes p .tag ['>'] ['>'] .content := h.closes

theorem takes_openTag (hname : IsName name) :
    Takes p .content (Xml.openTag name) (Xml.openTag name) .tag :=
  h.takes_open.append (h.takes_name hname)

/-- The name and the end of the tag at the end of an element. -/
theorem takes_ending (hname : IsName name) :
    Takes p .tag ('/' :: name.toList ++ ['>']) ('/' :: name.toList ++ ['>']) .content :=
  have hslash : ∀ c ∈ ['/'], c ∉ ['>', '"', '\'', '\r'] := by simp
  ((h.takes_tag hslash).append (h.takes_name hname)).append h.takes_close

theorem takes_closeTag (hname : IsName name) :
    Takes p .content (Xml.closeTag name) (Xml.closeTag name) .content :=
  h.takes_open.append (h.takes_ending hname)

theorem takes_emptyEnd : Takes p .tag Xml.emptyEnd Xml.emptyEnd .content :=
  have hend : ∀ c ∈ [' ', '/'], c ∉ ['>', '"', '\'', '\r'] := by simp
  (h.takes_tag hend).append h.takes_close

/-- A text that is the content of an element. -/
theorem takes_text (hname : IsName name) {s : String} (hs : Kept s) :
    Takes p .tag ('>' :: Xml.escape s.toList ++ Xml.closeTag name)
      ('>' :: Xml.escape (f .content s).toList ++ Xml.closeTag name) .content := by
  have hcontent : Takes p .content (Xml.escape s.toList ++ ['<'])
      (Xml.escape (f .content s).toList ++ ['<']) .tag := by
    intro rest
    rw [List.append_assoc, List.append_assoc]
    exact h.text s rest hs
  have htaken := h.takes_close.append (hcontent.append (h.takes_ending hname))
  simp only [Xml.closeTag, List.cons_append, List.nil_append, List.append_assoc] at htaken ⊢
  exact htaken

/-! ### Parts of a report -/

theorem takes_note? (hname : IsName name) {n : Option Note} (hn : ∀ w ∈ Note.textsOf n, Kept w.2) :
    Takes p .content (Xml.note? name n) (Xml.note? name (n.map (Note.mapTexts f))) .content := by
  cases n with
  | none => exact fun _ => rfl
  | some n =>
    obtain ⟨message, detail⟩ := n
    obtain ⟨hmessage, hdetail⟩ := List.forall_mem_cons.1 hn
    have hopen := ((h.takes_indent 3).append (h.takes_openTag hname)).append
      (h.takes_attr (show IsName "message" by decide) hmessage)
    cases detail with
    | none => exact (hopen.append h.takes_emptyEnd).append h.takes_feed
    | some detail =>
      have hdetail : Kept detail := hdetail (.content, detail) (List.mem_singleton_self _)
      exact (hopen.append (h.takes_text hname hdetail)).append h.takes_feed

theorem takes_output {text : Option String} (htext : ∀ s ∈ text, Kept s) :
    Takes p .content (text.elim [] Xml.output) ((text.map (f .content)).elim [] Xml.output)
      .content := by
  have hname : IsName "system-out" := by decide
  cases text with
  | none => exact fun _ => rfl
  | some text =>
    exact (((h.takes_indent 3).append (h.takes_openTag hname)).append
      (h.takes_text hname (htext text rfl))).append
      h.takes_feed

theorem takes_case {c : Case} (hc : ∀ w ∈ c.entry.texts, Kept w.2) :
    Takes p .content (Xml.case c) (Xml.case (c.mapTexts f)) .content := by
  obtain ⟨hname, hc⟩ := List.forall_mem_cons.1 hc
  obtain ⟨hclass, hc⟩ := List.forall_mem_cons.1 hc
  simp only [List.forall_mem_append] at hc
  obtain ⟨⟨⟨hfailure, herror⟩, hskipped⟩, hout⟩ := hc
  have hclassname : Takes p .tag (if c.classname = "" then [] else Xml.attr "classname" c.classname)
      (if f .value c.classname = "" then [] else Xml.attr "classname" (f .value c.classname))
        .tag := by
    simp only [h.eq_empty_iff]
    split
    · exact fun _ => rfl
    · exact h.takes_attr (by decide) hclass
  have hcontent : Takes p .content (Xml.caseContent c) (Xml.caseContent (c.mapTexts f)) .content :=
    (((h.takes_note? (by decide) hfailure).append (h.takes_note? (by decide) herror)).append
      (h.takes_note? (by decide) hskipped)).append
      (h.takes_output fun s hs => hout (.content, s) (List.mem_map_of_mem (Option.mem_toList.2 hs)))
  have htag : IsName "testcase" := by decide
  have hend : Takes p .tag (if isBare c then Xml.emptyEnd
        else '>' :: '\n' :: Xml.caseContent c ++ Xml.indent 2 ++ Xml.closeTag "testcase")
      (if isBare (c.mapTexts f) then Xml.emptyEnd
        else '>' :: '\n' :: Xml.caseContent (c.mapTexts f) ++ Xml.indent 2 ++
          Xml.closeTag "testcase") .content := by
    have hbare : isBare (c.mapTexts f) = isBare c := by
      simp only [isBare, Case.mapTexts, Option.isNone_map]
    rw [hbare]
    split
    · exact h.takes_emptyEnd
    · exact ((h.takes_close.append (h.takes_feed.append hcontent)).append (h.takes_indent 2)).append
        (h.takes_closeTag htag)
  exact (((((h.takes_indent 2).append (h.takes_openTag htag)).append
    (h.takes_attr (show IsName "name" by decide) hname)).append hclassname).append
    (h.takes_seconds (show IsName "time" by decide) c.time)).append hend |>.append h.takes_feed

theorem takes_suite {s : Suite} (hs : ∀ w ∈ s.entry.texts, Kept w.2) :
    Takes p .content (Xml.suite s) (Xml.suite (s.mapTexts f)) .content := by
  obtain ⟨hname, hcases⟩ := List.forall_mem_cons.1 hs
  have htime : Takes p .tag (s.timestamp.elim [] (Xml.moment "timestamp"))
      (s.timestamp.elim [] (Xml.moment "timestamp")) .tag := by
    cases s.timestamp with
    | none => exact fun _ => rfl
    | some t => exact h.takes_moment (by decide) t
  have hcontent : Takes p .content (s.cases.flatMap Xml.case)
      ((s.cases.map (Case.mapTexts f)).flatMap Xml.case)
      .content := by
    refine Takes.flatMap fun c hc => h.takes_case fun w hw => hcases w ?_
    exact List.mem_flatMap.2 ⟨c.entry, List.mem_map_of_mem hc, hw⟩
  have htag : IsName "testsuite" := by decide
  have hend : Takes p .tag (if s.cases.isEmpty then Xml.emptyEnd
        else '>' :: '\n' :: s.cases.flatMap Xml.case ++ Xml.indent 1 ++ Xml.closeTag "testsuite")
      (if (s.cases.map (Case.mapTexts f)).isEmpty then Xml.emptyEnd
        else '>' :: '\n' :: (s.cases.map (Case.mapTexts f)).flatMap Xml.case ++ Xml.indent 1 ++
          Xml.closeTag "testsuite") .content := by
    rw [List.isEmpty_map]
    split
    · exact h.takes_emptyEnd
    · exact ((h.takes_close.append (h.takes_feed.append hcontent)).append (h.takes_indent 1)).append
        (h.takes_closeTag htag)
  exact ((((((h.takes_indent 1).append (h.takes_openTag htag)).append
    (h.takes_attr (show IsName "name" by decide) hname)).append (h.takes_counts s.counts)).append
      htime).append
    (h.takes_seconds (show IsName "time" by decide) s.time)).append hend |>.append h.takes_feed

theorem takes_declaration : Takes p .content Xml.declaration.toList Xml.declaration.toList
    .content := by
  have hsplit : Xml.declaration.toList = ['<'] ++ ['?', 'x', 'm', 'l'] ++
      Xml.rawAttr "version" ['1', '.', '0'] ++
      Xml.rawAttr "encoding" ['U', 'T', 'F', '-', '8'] ++ ['?'] ++ ['>'] ++ ['\n'] := by decide
  rw [hsplit]
  exact ((((((h.takes_open.append (h.takes_tag (by simp))).append
    (h.takes_plain (by decide) (by decide))).append
    (h.takes_plain (by decide) (by decide))).append (h.takes_tag (by simp))).append
      h.takes_close).append h.takes_feed)

/-- **Of a report's document, a pass makes the document of the report with its texts changed.** -/
theorem xml {r : Report} (hr : ∀ w ∈ r.texts, Kept w.2) :
    p .content r.xml = (r.mapTexts f).xml := by
  obtain ⟨hname, hsuites⟩ := List.forall_mem_cons.1 hr
  have hcontent : Takes p .content (r.suites.flatMap Xml.suite)
      ((r.suites.map (Suite.mapTexts f)).flatMap Xml.suite)
      .content := by
    refine Takes.flatMap fun s hs => h.takes_suite fun w hw => hsuites w ?_
    exact List.mem_flatMap.2 ⟨s.entry, List.mem_map_of_mem hs, hw⟩
  have htag : IsName "testsuites" := by decide
  have hend : Takes p .tag (if r.suites.isEmpty then Xml.emptyEnd
        else '>' :: '\n' :: r.suites.flatMap Xml.suite ++ Xml.closeTag "testsuites")
      (if (r.suites.map (Suite.mapTexts f)).isEmpty then Xml.emptyEnd
        else '>' :: '\n' :: (r.suites.map (Suite.mapTexts f)).flatMap Xml.suite ++
          Xml.closeTag "testsuites")
      .content := by
    rw [List.isEmpty_map]
    split
    · exact h.takes_emptyEnd
    · exact (h.takes_close.append (h.takes_feed.append hcontent)).append (h.takes_closeTag htag)
  have hxml : Takes p .content r.xml (r.mapTexts f).xml .content :=
    (((((h.takes_declaration.append (h.takes_openTag htag)).append
      (h.takes_attr (show IsName "name" by decide) hname)).append (h.takes_counts r.counts)).append
      (h.takes_moment (show IsName "timestamp" by decide) r.started)).append
      (h.takes_seconds (show IsName "time" by decide) r.time)).append hend
  have hall := hxml []
  rw [h.nil, List.append_nil, List.append_nil] at hall
  exact hall

end Pass

end Takes

end TestOrchestrator.Markup
