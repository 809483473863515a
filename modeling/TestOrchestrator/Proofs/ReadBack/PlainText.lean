import TestOrchestrator.Proofs.ReadBack.Quotes
/-!
# Plain text

* `Scalar.Worded cs` says that `cs` is plain text, word by word. `Scalar.plain?_key` reads it before
  a colon and `Scalar.plain?_line` at the end of a line.
* `Quoting.FitsPlain cs` says that `cs` is printed without quotes; `Quoting.Fluent.worded`: then it
  is plain text.
-/

namespace TestOrchestrator.Yaml

namespace Scalar

open Quoting

/-- A word of plain text. -/
structure PlainWord (w : List Char) : Prop where
  ne_nil : w ≠ []
  solid : ∀ d ∈ w, isSpace d = false ∧ isBreak d = false
  /-- A colon at the end would make it a key. -/
  noColon : w.getLast? ≠ some ':'

/-- Plain text, word by word. -/
inductive Worded : List Char → Prop
  | word {w : List Char} (plain : PlainWord w) : Worded w
  | gap {w t : List Char} (k : Nat) (plain : PlainWord w) (noComment : t.head? ≠ some '#')
      (after : Worded t) : Worded (w ++ pad (k + 1) ++ t)

/-- What ends a word of plain text. -/
def EndsPlainWord : List Char → Prop
  | [] => True
  | d :: ds => isSpace d = true ∨ isBreak d = true ∨ (d = ':' ∧ isGap ds.head? = true)

variable {c : Cursor} {word w rest : List Char} {fuel floor : Nat}

theorem plainWord?_end (hend : EndsPlainWord c.rest) :
    plainWord? false (fuel + 1) word c = some (word, c) := by
  rw [plainWord?]
  cases hc : c.rest with
  | nil => rfl
  | cons d ds =>
    rw [hc] at hend
    rcases hend with hspace | hbreak | ⟨rfl, hnext⟩
    · simp [hspace]
    · simp [hbreak]
    · simp [strayColon, endsPlain, hnext]

theorem plainWord?_eq (hw : ∀ d ∈ w, isSpace d = false ∧ isBreak d = false)
    (hlast : w.getLast? ≠ some ':')
    (hc : c.rest = w ++ rest) (hend : EndsPlainWord rest) (hfuel : w.length < fuel) :
    plainWord? false fuel word c = some (word ++ w, c.past w) := by
  induction w generalizing c word fuel with
  | nil =>
    obtain ⟨fuel, rfl⟩ : ∃ k, fuel = k + 1 := ⟨fuel - 1, by omega⟩
    rw [plainWord?_end (by rw [hc]; exact hend)]
    simp
  | cons d w ih =>
    rw [List.length_cons] at hfuel
    obtain ⟨fuel, rfl⟩ : ∃ k, fuel = k + 1 := ⟨fuel - 1, by omega⟩
    obtain ⟨⟨hspace, hbreak⟩, hw⟩ := List.forall_mem_cons.1 hw
    have hopen : endsPlain false d (w ++ rest).head? = false := by
      cases w with
      | nil =>
        have hd : d ≠ ':' := by simpa using hlast
        simp [endsPlain, hd]
      | cons e w =>
        obtain ⟨hspace, hbreak⟩ := hw e List.mem_cons_self
        simp [endsPlain, isGap, hspace, hbreak]
    have hlast' : w.getLast? ≠ some ':' := by
      cases w with
      | nil => simp
      | cons e w => rwa [List.getLast?_cons_cons] at hlast
    have hnext : (c.skip 1).rest = w ++ rest := by simp [Cursor.skip, hc]
    have hskip : c.past (d :: w) = (c.skip 1).past w := by
      rw [Cursor.past_cons, hbreak]
      rfl
    rw [plainWord?, hc, List.cons_append, hskip]
    simp only [hspace, hbreak, strayColon, hopen, Bool.false_and, Bool.or_self, Bool.false_eq_true,
      if_false]
    rw [ih hw hlast' hnext (by omega), List.append_assoc, List.singleton_append]

/-- The end of a line or text, or a colon with a gap behind it. -/
theorem endsPlainWord_of_blank {s : List Char} (hs : Blank s) (hne : s ≠ []) (rest : List Char) :
    EndsPlainWord (s ++ rest) := by
  cases s with
  | nil => exact absurd rfl hne
  | cons d s =>
    rcases hs d List.mem_cons_self with rfl | ⟨hbreak, -⟩
    · exact .inl rfl
    · exact .inr (.inl hbreak)

/-- A place where plain text may go on: no mark between documents stands there, and no comment. -/
structure Resumes (c : Cursor) : Prop where
  noMark : c.atAnyDocumentMark = false
  noComment : c.startsWith '#' = false

/-- A word and the gap behind it. -/
theorem plainWords?_gap {p : Plain} {s : List Char} (hw : PlainWord w) (hs : Blank s) (hne : s ≠ [])
    (hrest : Solid rest) (hp : Resumes p.cursor) (hc : p.cursor.rest = w ++ (s ++ rest)) :
    plainWords? false floor (fuel + 1) p =
      if (p.cursor.past (w ++ s)).column < floor then
        some ⟨p.text ++ p.gap.text ++ w, ({} : Gap).over s, p.cursor.past (w ++ s)⟩
      else
        plainWords? false floor fuel
          ⟨p.text ++ p.gap.text ++ w, ({} : Gap).over s, p.cursor.past (w ++ s)⟩ := by
  have hlength : w.length < p.cursor.rest.length + 1 := by
    rw [hc, List.length_append]
    omega
  have hword : plainWord? false (p.cursor.rest.length + 1) [] p.cursor =
      some (w, p.cursor.past w) :=
    plainWord?_eq hw.solid hw.noColon hc (endsPlainWord_of_blank hs hne rest) hlength
  have hgap : (p.cursor.past w).rest = s ++ rest := Cursor.rest_past_of hc
  have hread : gap? floor ((p.cursor.past w).rest.length + 1) {} (p.cursor.past w) =
      some (({} : Gap).over s, (p.cursor.past w).past s) :=
    gap?_eq hs hrest hgap (by rw [hgap, List.length_append]; omega)
  obtain ⟨d, hd, hblank⟩ : ∃ d, (p.cursor.past w).head = some d ∧
      (isSpace d = true ∨ isBreak d = true) := by
    cases s with
    | nil => exact absurd rfl hne
    | cons d s =>
      refine ⟨d, by simp [Cursor.head, hgap], ?_⟩
      rcases hs d List.mem_cons_self with rfl | ⟨hbreak, -⟩
      · exact .inl rfl
      · exact .inr hbreak
  rw [plainWords?, hp.noMark, hp.noComment, hword]
  simp [hw.ne_nil, hd, hblank, hread, Cursor.past_append]

/-- The last word, with a colon behind it. -/
theorem plainWords?_colon {p : Plain} (hw : PlainWord w) (hp : Resumes p.cursor)
    (hgap : isGap rest.head? = true) (hc : p.cursor.rest = w ++ ':' :: rest) :
    plainWords? false floor (fuel + 1) p =
      some ⟨p.text ++ p.gap.text ++ w, {}, p.cursor.past w⟩ := by
  have hlength : w.length < p.cursor.rest.length + 1 := by
    rw [hc, List.length_append]
    omega
  have hword : plainWord? false (p.cursor.rest.length + 1) [] p.cursor =
      some (w, p.cursor.past w) :=
    plainWord?_eq hw.solid hw.noColon hc (.inr (.inr ⟨rfl, hgap⟩)) hlength
  have hhead : (p.cursor.past w).head = some ':' := by
    rw [Cursor.head, Cursor.rest_past_of hc]
    rfl
  rw [plainWords?, hp.noMark, hp.noComment, hword]
  simp [hw.ne_nil, hhead, isSpace, isBreak]

/-- Nothing is left to read. -/
theorem plainWords?_nil {p : Plain} (hc : p.cursor.rest = []) :
    plainWords? false floor (fuel + 1) p = some p := by
  have hmark : p.cursor.atAnyDocumentMark = false := by
    simp [Cursor.atAnyDocumentMark, Cursor.atDocumentMark, Cursor.peek, hc]
  have hcomment : p.cursor.startsWith '#' = false := by simp [Cursor.startsWith, hc]
  have hword : plainWord? false (p.cursor.rest.length + 1) [] p.cursor = some ([], p.cursor) :=
    plainWord?_end (by rw [hc]; trivial)
  rw [plainWords?, hmark, hcomment, hword]
  simp [Cursor.head, hc]

namespace Worded

variable {cs : List Char} {p : Plain}

theorem exists_head (h : Worded cs) : ∃ d ds, cs = d :: ds ∧ isSpace d = false ∧
    isBreak d = false := by
  have hword : ∀ {w : List Char} (t : List Char), PlainWord w →
      ∃ d ds, w ++ t = d :: ds ∧ isSpace d = false ∧ isBreak d = false := by
    intro w t hw
    obtain ⟨d, w, rfl⟩ := List.exists_cons_of_ne_nil hw.ne_nil
    exact ⟨d, w ++ t, rfl, hw.solid d List.mem_cons_self⟩
  cases h with
  | word plain => simpa using hword [] plain
  | gap k plain noComment after =>
    rw [List.append_assoc]
    exact hword _ plain

theorem solid (h : Worded cs) (rest : List Char) : Solid (cs ++ rest) := by
  obtain ⟨d, ds, rfl, hd⟩ := h.exists_head
  intro e he
  cases Option.mem_some.1 he
  exact hd

theorem any_isBreak (h : Worded cs) : cs.any isBreak = false := by
  induction h with
  | word plain =>
    rw [List.any_eq_false]
    intro d hd
    simp [(plain.solid d hd).2]
  | gap k plain noComment after ih =>
    rw [List.any_append, List.any_append, ih, Bool.or_false, Bool.or_eq_false_iff]
    constructor
    · rw [List.any_eq_false]
      intro d hd
      simp [(plain.solid d hd).2]
    · simp [pad, isBreak]

/-- Plain text is read up to its last word. -/
theorem exists_last (h : Worded cs) (hp : Resumes p.cursor) (hc : p.cursor.rest = cs ++ rest)
    (hfloor : floor ≤ p.cursor.column + 1) (hfuel : cs.length + 1 < fuel) :
    ∃ (q : Plain) (w : List Char) (k : Nat),
      plainWords? false floor fuel p = plainWords? false floor (k + 2) q ∧ PlainWord w ∧
      Resumes q.cursor ∧ q.cursor.rest = w ++ rest ∧ q.cursor.past w = p.cursor.past cs ∧
      q.text ++ q.gap.text ++ w = p.text ++ p.gap.text ++ cs := by
  induction h generalizing p fuel with
  | @word w plain =>
    obtain ⟨k, rfl⟩ : ∃ k, fuel = k + 2 := ⟨fuel - 2, by omega⟩
    exact ⟨p, w, k, rfl, plain, hp, hc, rfl, rfl⟩
  | @gap w t k plain noComment after ih =>
    obtain ⟨fuel, rfl⟩ : ∃ k, fuel = k + 1 := ⟨fuel - 1, by omega⟩
    have hpad : Blank (pad (k + 1)) := fun d hd => .inl (List.eq_of_mem_replicate hd)
    have hline : (w ++ pad (k + 1)).any isBreak = false := by
      have hbreak := any_isBreak (.gap k plain noComment after)
      rw [List.any_append, Bool.or_eq_false_iff] at hbreak
      exact hbreak.1
    have hcolumn : (p.cursor.past (w ++ pad (k + 1))).column =
        p.cursor.column + (w.length + (k + 1)) := by
      rw [Cursor.past_eq_skip hline]
      simp [Cursor.skip, pad]
    have hwidth := List.length_pos_iff.2 plain.ne_nil
    have hnext : (p.cursor.past (w ++ pad (k + 1))).rest = t ++ rest := by
      apply Cursor.rest_past_of
      rw [hc, List.append_assoc]
    have hresumes : Resumes (p.cursor.past (w ++ pad (k + 1))) := by
      obtain ⟨d, ds, rfl, -⟩ := after.exists_head
      refine ⟨atAnyDocumentMark_of_column (by omega), ?_⟩
      rw [Cursor.startsWith, hnext]
      simpa using noComment
    have hgap : (({} : Gap).over (pad (k + 1))).text = pad (k + 1) := by
      rw [Gap.over_pad rfl]
      rfl
    have hshort : t.length + 1 < fuel := by
      simp only [List.length_append] at hfuel
      omega
    rw [List.append_assoc, List.append_assoc] at hc
    obtain ⟨q, w', k', hrun, hw', hq, hq', hpast, htext⟩ :=
      ih (p := ⟨p.text ++ p.gap.text ++ w, ({} : Gap).over (pad (k + 1)),
        p.cursor.past (w ++ pad (k + 1))⟩) hresumes hnext (by simp only [hcolumn]; omega) hshort
    refine ⟨q, w', k', ?_, hw', hq, hq', ?_, ?_⟩
    · rw [plainWords?_gap plain hpad (List.cons_ne_nil ' ' (pad k)) (after.solid rest) hp hc,
        if_neg, hrun]
      omega
    · rw [hpast, ← Cursor.past_append]
    · rw [htext]
      simp only [hgap, List.append_assoc]

end Worded

/-- **Plain text before a colon is read as it is.** -/
theorem plain?_key {cs : List Char} (h : Worded cs) (hcursor : Resumes c)
    (hgap : isGap rest.head? = true)
    (hc : c.rest = cs ++ ':' :: rest) (hfloor : floor ≤ c.column + 1) :
    plain? false floor c = some (cs, c.past cs, false) := by
  have hfuel : cs.length + 1 < c.rest.length + 1 := by
    simp only [hc, List.length_append, List.length_cons]
    omega
  obtain ⟨q, w, k, hrun, hw, hq, hq', hpast, htext⟩ :=
    h.exists_last (p := ⟨[], {}, c⟩) hcursor hc hfloor hfuel
  rw [plain?, hrun, plainWords?_colon hw hq hgap hq', htext, hpast]
  rfl

/-- **Plain text at the end of a line is read as it is.** -/
theorem plain?_line {cs : List Char} {m : Nat} (h : Worded cs) (hcursor : Resumes c)
    (hrest : Solid rest)
    (hend : rest = [] ∨ m < floor) (hc : c.rest = cs ++ '\n' :: (pad m ++ rest))
    (hfloor : floor ≤ c.column + 1) :
    plain? false floor c = some (cs, c.past (cs ++ '\n' :: pad m), true) := by
  have hfuel : cs.length + 1 < c.rest.length + 1 := by
    simp only [hc, List.length_append, List.length_cons]
    omega
  obtain ⟨q, w, k, hrun, hw, hq, hq', hpast, htext⟩ :=
    h.exists_last (p := ⟨[], {}, c⟩) hcursor hc hfloor hfuel
  have hblank : Blank ('\n' :: pad m) := by
    intro d hd
    rcases List.mem_cons.1 hd with rfl | hd
    · exact .inr ⟨rfl, by decide⟩
    · exact .inl (List.eq_of_mem_replicate hd)
  have hplace : q.cursor.past (w ++ '\n' :: pad m) = c.past (cs ++ '\n' :: pad m) := by
    rw [Cursor.past_append, hpast, ← Cursor.past_append]
  have hcolumn : (c.past (cs ++ '\n' :: pad m)).column = m := Cursor.column_past rfl
  have hbroken : (({} : Gap).over ('\n' :: pad m)).broken = true := by
    rw [Gap.over_cons, Gap.over_pad_of_broken rfl]
    rfl
  have hnext : (c.past (cs ++ '\n' :: pad m)).rest = rest := by
    apply Cursor.rest_past_of
    rw [hc, List.append_assoc]
    rfl
  rw [plain?, hrun, plainWords?_gap hw hblank (List.cons_ne_nil _ _) hrest hq hq', htext, hplace,
    hcolumn]
  rcases hend with rfl | hm
  · rw [plainWords?_nil hnext, ite_self]
    simp [hbroken, Gap.text]
  · rw [if_pos hm]
    simp [hbroken, Gap.text]

end Scalar

/-! ## What is written plain -/

namespace Quoting

open Scalar

variable {cs ds : List Char}

/-- A text that can be written without quotes. -/
structure FitsPlain (cs : List Char) : Prop where
  ne_nil : cs ≠ []
  allowed : allowsPlain cs = true

theorem hasColon_append (h : hasColon (cs ++ ds) = false) : hasColon ds = false := by
  induction cs with
  | nil => exact h
  | cons c cs ih =>
    rw [List.cons_append, hasColon, Bool.or_eq_false_iff] at h
    exact ih h.2

namespace FitsPlain

theorem printable (h : FitsPlain cs) : ∀ d ∈ cs, isPrintable d = true := by
  have hall := h.allowed
  simp only [allowsPlain, Bool.and_eq_true] at hall
  exact List.all_eq_true.1 hall.1.1.1

theorem any_isBreak (h : FitsPlain cs) : cs.any isBreak = false := by
  have hall := h.allowed
  simp only [allowsPlain, Bool.and_eq_true, Bool.not_eq_true'] at hall
  exact hall.1.1.2

theorem hasLooseEnd (h : FitsPlain cs) : hasLooseEnd cs = false := by
  have hall := h.allowed
  simp only [allowsPlain, Bool.and_eq_true, Bool.not_eq_true'] at hall
  exact hall.1.2

theorem hasMark (h : FitsPlain cs) : hasMark cs = false := by
  have hall := h.allowed
  simp only [allowsPlain, Bool.and_eq_true, Bool.not_eq_true'] at hall
  exact hall.2

end FitsPlain

/-- Text that begins and ends with something else than a space and has no break, no colon before a
gap and no number sign behind one. -/
structure Fluent (cs : List Char) : Prop where
  ne_nil : cs ≠ []
  printable : ∀ d ∈ cs, isPrintable d = true ∧ isBreak d = false
  first : cs.head? ≠ some ' '
  last : cs.getLast? ≠ some ' '
  noColon : hasColon cs = false
  noComment : adjacent (fun c => isEnd (some c)) (· = '#') cs = false

theorem FitsPlain.fluent (h : FitsPlain cs) : Fluent cs := by
  have hbreak := List.any_eq_false.1 h.any_isBreak
  have hloose := h.hasLooseEnd
  have hmark := h.hasMark
  simp only [Quoting.hasLooseEnd, Quoting.hasMark, Bool.or_eq_false_iff] at hloose hmark
  refine ⟨h.ne_nil, fun d hd => ⟨h.printable d hd, by simpa using hbreak d hd⟩, ?_, ?_, hmark.1.2,
    hmark.2⟩
  · intro hfirst
    simp [hfirst] at hloose
  · intro hlast
    simp [hlast] at hloose

namespace Fluent

/-- The first word. -/
theorem plainWord {w t : List Char} (h : Fluent (w ++ t)) (hw : ∀ d ∈ w, d ≠ ' ')
    (ht : ∀ d ∈ t.head?, d = ' ') : PlainWord w := by
  refine ⟨?_, fun d hd => ?_, fun hlast => ?_⟩
  · rintro rfl
    cases t with
    | nil => exact h.ne_nil rfl
    | cons d t => exact h.first (by rw [ht d rfl]; rfl)
  · obtain ⟨hprintable, hbreak⟩ := h.printable d (List.mem_append_left _ hd)
    exact ⟨isSpace_of_isPrintable hprintable (hw d hd), hbreak⟩
  · obtain ⟨w, rfl⟩ : ∃ w', w = w' ++ [':'] := List.getLast?_eq_some_iff.1 hlast
    have hcolon := h.noColon
    rw [List.append_assoc] at hcolon
    have hcolon' := hasColon_append hcolon
    cases t with
    | nil => simp [hasColon, isEnd, isGap] at hcolon'
    | cons d t =>
      cases ht d rfl
      simp [hasColon, isEnd, isGap, isSpace] at hcolon'

/-- What stands behind the first gap. -/
theorem behind {w u : List Char} {j : Nat} (h : Fluent (w ++ (pad (j + 1) ++ u)))
    (hu : ∀ d ∈ u.head?, d ≠ ' ') : Fluent u ∧ u.head? ≠ some '#' := by
  have hne : u ≠ [] := by
    rintro rfl
    apply h.last
    rw [List.append_nil, pad, List.replicate_succ', ← List.append_assoc]
    simp
  have happart : adjacent (fun c => isEnd (some c)) (· = '#') (pad (j + 1) ++ u) = false :=
    adjacent_append h.noComment
  refine ⟨⟨hne, ?_, ?_, ?_, ?_, adjacent_append happart⟩, ?_⟩
  · exact fun d hd => h.printable d (List.mem_append_right _ (List.mem_append_right _ hd))
  · exact fun hfirst => hu ' ' hfirst rfl
  · have hlast := h.last
    rwa [List.getLast?_append_of_ne_nil _ (by simp [hne]),
      List.getLast?_append_of_ne_nil _ hne] at hlast
  · exact hasColon_append (hasColon_append h.noColon)
  · intro hhead
    obtain ⟨u, rfl⟩ : ∃ u', u = '#' :: u' := List.head?_eq_some_iff.1 hhead
    have hspace : ∀ c ∈ pad (j + 1), isEnd (some c) = true := by
      intro c hc
      rw [List.eq_of_mem_replicate hc]
      rfl
    simpa using not_adjacent_of_forall happart (List.cons_ne_nil ' ' (pad j)) hspace

theorem worded (h : Fluent cs) : Worded cs := by
  induction hk : cs.length using Nat.strongRecOn generalizing cs with
  | ind k ih =>
    obtain ⟨w, t, rfl, hw, ht⟩ := exists_span (· ≠ ' ') cs
    have hword : PlainWord w := h.plainWord (by simpa using hw) (by simpa using ht)
    cases t with
    | nil =>
      rw [List.append_nil]
      exact .word hword
    | cons d t =>
      obtain ⟨j, u, hu, hhead⟩ := exists_spaces (by simpa using ht) t
      rw [hu] at h hk ⊢
      obtain ⟨hfluent, hcomment⟩ := h.behind hhead
      rw [← List.append_assoc]
      refine .gap j hword hcomment (ih u.length ?_ hfluent rfl)
      rw [← hk]
      simp only [List.length_append, pad, List.length_replicate]
      omega

end Fluent

end Quoting

end TestOrchestrator.Yaml
