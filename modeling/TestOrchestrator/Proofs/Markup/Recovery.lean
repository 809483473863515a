import TestOrchestrator.Proofs.Markup.Passes
/-!
# What a reader recovers from a document

* `pass_lineEnds` and `pass_spacedValues`: the normalization of line ends and that of values are
  passes.
* `ofNormalized?_renderXml`: from a report's document a reader that follows XML 1.0 gets what the
  report tells, every text normalized for the part that shows it.
* `recovered_renderXml`: it gets all texts as they are just when none has a carriage return and none
  that stands in an attribute has a tab or a line feed.
-/

namespace TestOrchestrator

namespace Markup

variable {c d : Char} {cs rest : List Char} {g : Region}

/-! ## Escaped texts -/

/-- Of the marks that end a region none stands in an escaped text, and white space only where the
text has it. -/
theorem mem_escapeChar (h : d ∈ Xml.escapeChar c) : d ∉ ['<', '>', '"', '\''] ∧
    (isSpace d = true → d = c) := by
  unfold Xml.escapeChar at h
  split at h
  iterate 8
    revert d
    simp [isSpace]
  rename_i hand hopen hclose hquote happ hfeed hreturn htab
  split at h
  · cases h
  · obtain rfl := List.mem_singleton.1 h
    refine ⟨?_, fun _ => rfl⟩
    simp only [List.mem_cons, List.not_mem_nil, or_false, not_or]
    exact ⟨hopen, hclose, hquote, happ⟩

theorem notMem_escape (hd : d ∈ ['<', '>', '"', '\'']) (cs : List Char) : d ∉ Xml.escape cs := by
  intro h
  obtain ⟨c, -, hc⟩ := List.mem_flatMap.1 h
  exact (mem_escapeChar hc).1 hd

/-! ## Line ends -/

theorem lineEnds_cons (h : c ≠ '\r') (cs : List Char) : lineEnds (c :: cs) = c :: lineEnds cs := by
  rw [lineEnds]
  · exact fun _ hc _ => h hc
  · exact h

theorem lineEnds_append (hcs : '\r' ∉ cs) (rest : List Char) :
    lineEnds (cs ++ rest) = cs ++ lineEnds rest := by
  induction cs with
  | nil => rfl
  | cons c cs ih =>
    rw [List.mem_cons, not_or] at hcs
    rw [List.cons_append, lineEnds_cons (Ne.symm hcs.1), ih hcs.2, List.cons_append]

theorem lineEnds_return (h : cs.head? ≠ some '\n') :
    lineEnds ('\r' :: cs) = '\n' :: lineEnds cs := by
  rw [lineEnds]
  rintro cs rfl
  exact h rfl

theorem lineEnds_eq_nil_iff : lineEnds cs = [] ↔ cs = [] := by
  fun_cases lineEnds cs with
  | case1 => exact Iff.rfl
  | case2 cs => exact iff_of_false (List.cons_ne_nil _ _) (List.cons_ne_nil _ _)
  | case3 cs _ => exact iff_of_false (List.cons_ne_nil _ _) (List.cons_ne_nil _ _)
  | case4 c cs _ _ => exact iff_of_false (List.cons_ne_nil _ _) (List.cons_ne_nil _ _)

theorem escape_cons (c : Char) (cs : List Char) :
    Xml.escape (c :: cs) = Xml.escapeChar c ++ Xml.escape cs :=
  List.flatMap_cons

/-- A kept text has a line feed in front if its escaped text has. -/
theorem head?_escape (hcs : kept cs = cs) (h : (Xml.escape cs).head? = some '\n') :
    cs.head? = some '\n' := by
  cases cs with
  | nil => cases h
  | cons c cs =>
    have hc := kept_eq_self_iff.1 hcs c List.mem_cons_self
    rw [escape_cons] at h
    unfold Xml.escapeChar at h
    split at h
    iterate 8 first | exact h | cases h
    rename_i hand hopen hclose hquote happ hfeed hreturn htab
    rw [if_neg (by grind)] at h
    exact h

/-- Behind a kept text the line ends of an escaped text are those of the text. -/
theorem lineEnds_escape (hcs : kept cs = cs) (hd : d ∉ ['\n', '\r']) (rest : List Char) :
    lineEnds (Xml.escape cs ++ d :: rest) = Xml.escape (lineEnds cs) ++ d :: lineEnds rest := by
  simp only [List.mem_cons, List.not_mem_nil, or_false, not_or] at hd
  have htail : ∀ {c cs}, kept (c :: cs) = c :: cs → kept cs = cs := fun h =>
    kept_eq_self_iff.2 fun c hc => kept_eq_self_iff.1 h c (List.mem_cons_of_mem _ hc)
  fun_induction lineEnds cs with
  | case1 => exact lineEnds_cons hd.2 rest
  | case2 cs ih =>
    show '\n' :: lineEnds (Xml.escape cs ++ d :: rest) =
      '\n' :: (Xml.escape (lineEnds cs) ++ d :: lineEnds rest)
    rw [ih (htail (htail hcs))]
  | case3 cs hfeed ih =>
    have hhead : (Xml.escape cs ++ d :: rest).head? ≠ some '\n' := by
      intro h
      cases hcs' : Xml.escape cs with
      | nil =>
        rw [hcs'] at h
        exact hd.1 (Option.some.inj h)
      | cons e ds =>
        have hfirst : cs.head? = some '\n' :=
          head?_escape (htail hcs) (by rw [hcs']; rw [hcs'] at h; exact h)
        obtain ⟨cs, rfl⟩ := List.head?_eq_some_iff.1 hfirst
        exact hfeed cs rfl
    show lineEnds ('\r' :: (Xml.escape cs ++ d :: rest)) =
      '\n' :: (Xml.escape (lineEnds cs) ++ d :: lineEnds rest)
    rw [lineEnds_return hhead, ih (htail hcs)]
  | case4 c cs _ hreturn ih =>
    have hchar : '\r' ∉ Xml.escapeChar c := fun h => hreturn ((mem_escapeChar h).2 rfl).symm
    rw [escape_cons, escape_cons, List.append_assoc, lineEnds_append hchar, ih (htail hcs),
      List.append_assoc]

/-! ## Values -/

/-- White space changes alike in a character and in its escaped text. -/
theorem map_spaceOf_escapeChar (c : Char) :
    (Xml.escapeChar c).map spaceOf = Xml.escapeChar (spaceOf c) := by
  by_cases hspace : isSpace c = true
  · obtain rfl | rfl | rfl | rfl := (isSpace_iff c).1 hspace
    all_goals rfl
  · have hstays : ∀ d ∈ Xml.escapeChar c, spaceOf d = d := fun d hd =>
      if_neg fun hspace' => hspace ((mem_escapeChar hd).2 hspace' ▸ hspace')
    rw [spaceOf, if_neg hspace, List.map_congr_left hstays, List.map_id']

theorem map_spaceOf_escape (cs : List Char) :
    (Xml.escape cs).map spaceOf = Xml.escape (cs.map spaceOf) := by
  simp only [Xml.escape, List.map_flatMap, List.flatMap_map, map_spaceOf_escapeChar]

/-- A text that does not end its region. -/
theorem spacedValues_append (h : ∀ c ∈ cs, g.behind c = g) (rest : List Char) :
    spacedValues g (cs ++ rest) = cs.map g.shows ++ spacedValues g rest := by
  induction cs with
  | nil => rfl
  | cons c cs ih =>
    obtain ⟨hc, hcs⟩ := List.forall_mem_cons.1 h
    rw [List.cons_append, spacedValues, hc, ih hcs, List.map_cons, List.cons_append]

/-! ## Passes -/

/-- Normalizing the ends of lines leaves markup alone. -/
theorem pass_lineEnds : Pass (fun _ => lineEnds) changeLines where
  nil := rfl
  content c cs _ hreturn := lineEnds_cons hreturn cs
  opens := lineEnds_cons (by decide)
  tag c cs hc := lineEnds_cons (by rintro rfl; exact hc (by decide)) cs
  closes := lineEnds_cons (by decide)
  value s cs hs := by
    rw [lineEnds_cons (by decide), lineEnds_escape hs (by decide), changeLines,
      String.toList_ofList]
  text s cs hs := by
    rw [lineEnds_escape hs (by decide), changeLines, String.toList_ofList]
  plain s hs := by
    have hreturn : '\r' ∉ s.toList := fun h => absurd (hs '\r' h).1 (by decide)
    rw [changeLines, lineEnds_eq_self hreturn, String.ofList_toList]
  eq_empty_iff s := by
    rw [changeLines, String.ofList_eq_empty_iff, lineEnds_eq_nil_iff, String.toList_eq_nil_iff]

/-- Normalizing white space in values leaves markup alone. -/
theorem pass_spacedValues : Pass spacedValues changeSpaces where
  nil := rfl
  content c cs hopen _ := by
    show c :: spacedValues (if c = '<' then .tag else .content) cs = _
    rw [if_neg hopen]
  opens _ := rfl
  tag c cs hc := by
    simp only [List.mem_cons, List.not_mem_nil, or_false, not_or] at hc
    simp [spacedValues, Region.behind, Region.shows, hc]
  closes _ := rfl
  value s cs _ := by
    have hstays : ∀ c ∈ Xml.escape s.toList, (Region.value '"').behind c = .value '"' := fun c hc =>
      if_neg fun heq => notMem_escape (by decide) s.toList (heq ▸ hc)
    show '"' :: spacedValues (.value '"') (Xml.escape s.toList ++ '"' :: cs) = _
    rw [spacedValues_append hstays]
    show '"' :: ((Xml.escape s.toList).map spaceOf ++ '"' :: spacedValues .tag cs) = _
    rw [map_spaceOf_escape, changeSpaces, String.toList_ofList]
  text s cs _ := by
    have hstays : ∀ c ∈ Xml.escape s.toList, Region.content.behind c = .content := fun c hc =>
      if_neg fun heq => notMem_escape (by decide) s.toList (heq ▸ hc)
    rw [spacedValues_append hstays]
    show (Xml.escape s.toList).map id ++ '<' :: spacedValues .tag cs = _
    rw [List.map_id, changeSpaces]
  plain s hs := by
    have hstays : ∀ c ∈ s.toList, spaceOf c = c := fun c hc => (spaceOf_eq_self_iff c).2 <| by
      have hlarge := (hs c hc).1
      refine ⟨?_, ?_, ?_⟩ <;> rintro rfl <;> exact absurd hlarge (by decide)
    rw [changeSpaces, List.map_congr_left hstays, List.map_id', String.ofList_toList]
  eq_empty_iff s := by
    rw [changeSpaces, String.ofList_eq_empty_iff, List.map_eq_nil_iff, String.toList_eq_nil_iff]

theorem allowed_of_all {r : Report} (h : (r.texts.all fun w => w.2.toList.all isAllowed) = true) :
    ∀ w ∈ r.texts, ∀ c ∈ w.2.toList, isAllowed c = true := fun w hw =>
  List.all_eq_true.1 (List.all_eq_true.1 h w hw)

/-- All the characters of a document are allowed if all those of its texts are. -/
theorem all_isAllowed_xml {r : Report} (hr : ∀ w ∈ r.texts, ∀ c ∈ w.2.toList, isAllowed c = true) :
    r.xml.all isAllowed = true := by
  rw [List.all_eq_true, ← forbidden_eq_nil_iff, forbidden_xml, noncharacters,
    List.flatMap_eq_nil_iff]
  intro w hw
  rw [List.filter_eq_nil_iff]
  intro c hc
  rw [((isAllowed_iff c).1 (hr w hw c hc)).2]
  exact Bool.false_ne_true

end Markup

namespace Report

open Markup

/-- From the document of a report a reader gets what the report tells, with its texts normalized. -/
theorem ofNormalized?_renderXml {r : Report}
    (hr : ∀ w ∈ r.texts, ∀ c ∈ w.2.toList, isAllowed c = true) :
    Transcript.ofNormalized? r.renderXml.toList =
      some (r.transcript.mapTexts normalized Duration.threePlaces) := by
  have hkept : ∀ w ∈ r.texts, Kept w.2 := fun w hw => kept_of_isAllowed (hr w hw)
  have hlines : ∀ w ∈ (r.mapTexts changeLines).texts, Kept w.2 := by
    rw [texts_mapTexts, List.forall_mem_map]
    exact fun w hw => kept_changeLines (hkept w hw) w.1
  have hspaces : ∀ w ∈ ((r.mapTexts changeLines).mapTexts changeSpaces).texts, Kept w.2 := by
    rw [texts_mapTexts, List.forall_mem_map]
    exact fun w hw => kept_changeSpaces (hlines w hw) w.1
  have hprintable : ∀ w ∈ ((r.mapTexts changeLines).mapTexts changeSpaces).texts,
      printable w.2 = w.2 := by
    intro w hw
    rw [printable, hspaces w hw, String.ofList_toList]
  have hcongr : ((r.mapTexts changeLines).mapTexts changeSpaces).transcript.mapTexts (fun _ =>
      printable)
      Duration.threePlaces = ((r.mapTexts changeLines).mapTexts changeSpaces).transcript.mapTexts
        (fun _ s => s)
        Duration.threePlaces := Transcript.mapTexts_congr _ hprintable
  rw [renderXml, String.toList_ofList, Transcript.ofNormalized?, readNormalized?,
    if_pos (all_isAllowed_xml hr), pass_lineEnds.xml hkept, pass_spacedValues.xml hlines, read?_xml,
    Option.bind_some, report?_document, ← Transcript.mapTexts_const, hcongr,
    Transcript.mapTexts_transcript, Transcript.mapTexts_transcript]
  rfl

/-- A reader gets the texts of a report as they are just when it changes no character of them. -/
theorem ofNormalized?_eq_transcript_iff {r : Report}
    (hr : ∀ w ∈ r.texts, ∀ c ∈ w.2.toList, isAllowed c = true) :
    Transcript.ofNormalized? r.renderXml.toList = some (r.transcript.map id Duration.threePlaces) ↔
      ∀ w ∈ r.texts, ∀ c ∈ w.2.toList, w.1.keeps c = true := by
  rw [ofNormalized?_renderXml hr, Option.some_inj, ← Transcript.mapTexts_const,
    Transcript.mapTexts_eq_iff]
  simp only [normalized_eq_self_iff, id]
  rfl

/-- **A reader that follows XML 1.0 gets the texts of a report normalized**, and gets them as they
are just when none has a carriage return and none that stands in an attribute has a tab or a line
feed. -/
theorem recovered_renderXml (r : Report)
    (hr : ∀ w ∈ r.texts, ∀ c ∈ w.2.toList, isAllowed c = true) :
    Transcript.ofNormalized? r.renderXml.toList =
      some (r.transcript.mapTexts normalized Duration.threePlaces) ∧
      (Transcript.ofNormalized? r.renderXml.toList =
        some (r.transcript.map id Duration.threePlaces) ↔
        ∀ w ∈ r.texts, ∀ c ∈ w.2.toList, w.1.keeps c = true) :=
  ⟨ofNormalized?_renderXml hr, ofNormalized?_eq_transcript_iff hr⟩

/-- Of a tab in a name a reader makes a space, of a carriage return in a detail a line feed. -/
theorem recovered_tab_return :
    (∀ w ∈ (ofFailure "a\tb" "one\rtwo").texts, ∀ c ∈ w.2.toList, isAllowed c = true) ∧
    (Transcript.ofNormalized? (ofFailure "a\tb" "one\rtwo").renderXml.toList).map Transcript.texts =
      some [(.value, "nightly"), (.value, "smoke"), (.value, "a b"), (.value, ""),
        (.value, "expected \"<\" & 'b'"),
        (.content, "one\ntwo")] := by
  have hallowed := allowed_of_all (r := ofFailure "a\tb" "one\rtwo") (by decide +kernel)
  refine ⟨hallowed, ?_⟩
  rw [(recovered_renderXml _ hallowed).1]
  decide +kernel

/-- A detail with a carriage return is not recovered. -/
theorem not_recovered_renderXml : ¬∀ r : Report, r.finalized = true →
    (∀ w ∈ r.texts, ∀ c ∈ w.2.toList, isAllowed c = true) →
      Transcript.ofNormalized? r.renderXml.toList =
        some (r.transcript.map id Duration.threePlaces) := by
  intro h
  have hallowed := allowed_of_all (r := ofFailure "ping" "one\r\ntwo") (by decide +kernel)
  have hchanged : Part.keeps .content '\r' = false := by decide
  have hkept := (ofNormalized?_eq_transcript_iff hallowed).1 (h _ rfl hallowed)
  have hreturn := hkept (.content, "one\r\ntwo") (by decide +kernel) '\r' (by decide +kernel)
  rw [hchanged] at hreturn
  cases hreturn

end Report

end TestOrchestrator
