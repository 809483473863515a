import TestOrchestrator.Proofs.Markup.Characters
/-!
# Documents as XML 1.0 reads them

A reader that follows XML 1.0 refuses some characters and changes others before it looks at markup.

* `Markup.lineEnds` makes every end of a line a line feed, and `Markup.spacedValues` makes white
  space that stands in the value of an attribute a space. `Markup.readNormalized?` reads a document
  after both.
* `Markup.normalized p s` is what becomes of a text `s` in the part `p` of a document.
  `normalized_eq_self_iff`: it stays as it is just when it has no character that the part changes.
* `Markup.Kept s` says that markup drops nothing of a text; allowed characters are kept
  (`kept_of_isAllowed`).
-/

namespace TestOrchestrator

namespace Markup

variable {c : Char} {cs ds rest : List Char} {name : String}

/-! ## The reader -/

/-- Every end of a line is a line feed: a carriage return, alone or with a line feed behind it,
becomes one. -/
def lineEnds : List Char → List Char
  | [] => []
  | '\r' :: '\n' :: cs => '\n' :: lineEnds cs
  | '\r' :: cs => '\n' :: lineEnds cs
  | c :: cs => c :: lineEnds cs

/-- A space for white space of any kind. -/
def spaceOf (c : Char) : Char := if isSpace c then ' ' else c

/-- Where in a document a character stands. -/
inductive Region where
  /-- Between tags. -/
  | content
  | tag
  /-- In the value of an attribute that ends at a quote. -/
  | value (quote : Char)

/-- The region behind a character. -/
def Region.behind : Region → Char → Region
  | .content, c => if c = '<' then .tag else .content
  | .tag, c => if c = '>' then .content else if c = '"' || c = '\'' then .value c else .tag
  | .value quote, c => if c = quote then .tag else .value quote

/-- A character as its region has it. -/
def Region.shows : Region → Char → Char
  | .value _, c => spaceOf c
  | _, c => c

/-- White space that stands in the values of attributes becomes spaces. -/
def spacedValues : Region → List Char → List Char
  | _, [] => []
  | g, c :: cs => g.shows c :: spacedValues (g.behind c) cs

/-- The element of a document of allowed characters, after its line ends and values have been
normalized. -/
def readNormalized? (cs : List Char) : Option Node :=
  if cs.all isAllowed then read? (spacedValues .content (lineEnds cs)) else none

end Markup

open Markup

/-- What a document tells a reader that follows XML 1.0. -/
def Transcript.ofNormalized? (cs : List Char) : Option (Transcript String) :=
  (readNormalized? cs).bind report?

namespace Markup

/-! ## What becomes of texts -/

/-- A text with its line ends changed. -/
def changeLines : Change := fun _ s => String.ofList (lineEnds s.toList)

/-- A text with its white space changed, if it stands in an attribute. -/
def changeSpaces : Change
  | .value, s => String.ofList (s.toList.map spaceOf)
  | .content, s => s

/-- A text as a reader gets it. -/
def normalized : Change := fun p s => changeSpaces p (changeLines p s)

/-- The characters that a reader gets as they are. -/
def Part.keeps : Part → Char → Bool
  | .value, c => c ≠ '\t' && c ≠ '\n' && c ≠ '\r'
  | .content, c => c ≠ '\r'

theorem mem_lineEnds (h : c ∈ lineEnds cs) : c = '\n' ∨ c ∈ cs := by
  fun_induction lineEnds cs with
  | case1 => cases h
  | case2 cs ih => grind
  | case3 cs hcs ih => grind
  | case4 d cs hd hreturn ih => grind

theorem return_notMem_lineEnds (cs : List Char) : '\r' ∉ lineEnds cs := by
  fun_induction lineEnds cs with
  | case1 => exact List.not_mem_nil
  | case2 cs ih => simpa using ih
  | case3 cs hcs ih => simpa using ih
  | case4 d cs hd hreturn ih => grind

theorem lineEnds_eq_self (h : '\r' ∉ cs) : lineEnds cs = cs := by
  fun_induction lineEnds cs with
  | case1 => rfl
  | case2 cs ih => grind
  | case3 cs hcs ih => grind
  | case4 d cs hd hreturn ih => grind

theorem isSpace_iff (c : Char) : isSpace c = true ↔ c = ' ' ∨ c = '\t' ∨ c = '\n' ∨ c = '\r' := by
  simp only [isSpace, Bool.or_eq_true, decide_eq_true_eq, or_assoc]

theorem spaceOf_eq_self_iff (c : Char) : spaceOf c = c ↔ c ≠ '\t' ∧ c ≠ '\n' ∧ c ≠ '\r' := by
  unfold spaceOf
  split
  · rename_i hspace
    constructor
    · rintro rfl
      decide
    · rintro ⟨htab, hfeed, hreturn⟩
      have hcases := (isSpace_iff c).1 hspace
      simp only [htab, hfeed, hreturn, or_false] at hcases
      exact hcases.symm
  · rename_i hspace
    rw [isSpace_iff] at hspace
    simp only [not_or] at hspace
    exact iff_of_true rfl hspace.2

/-- **A reader gets a text as it is just when it has no character that its part changes.** -/
theorem normalized_eq_self_iff (p : Part) (s : String) : normalized p s = s ↔ ∀ c ∈ s.toList,
    p.keeps c = true := by
  have hlist : ∀ cs : List Char, String.ofList cs = s ↔ cs = s.toList := by
    intro cs
    rw [← String.toList_inj, String.toList_ofList]
  have hlines : ('\r' ∉ s.toList) ↔ lineEnds s.toList = s.toList :=
    ⟨lineEnds_eq_self, fun h => h ▸ return_notMem_lineEnds s.toList⟩
  cases p with
  | content =>
    show String.ofList (lineEnds s.toList) = s ↔ _
    rw [hlist, ← hlines]
    simp only [Part.keeps, decide_eq_true_eq, ne_eq]
    exact ⟨fun h c hc heq => h (heq ▸ hc), fun h hmem => h _ hmem rfl⟩
  | value =>
    show String.ofList ((String.ofList (lineEnds s.toList)).toList.map spaceOf) = s ↔ _
    have hspaces : (lineEnds s.toList).map spaceOf = s.toList ↔ ∀ c ∈ s.toList, spaceOf c = c := by
      constructor
      · intro h c hc
        rw [← h] at hc
        obtain ⟨d, -, rfl⟩ := List.mem_map.1 hc
        unfold spaceOf
        split <;> simp_all
      · intro h
        have hreturn : '\r' ∉ s.toList := fun hmem => absurd (h _ hmem) (by decide)
        rw [hlines.1 hreturn, List.map_congr_left h, List.map_id']
    rw [hlist, String.toList_ofList, hspaces]
    simp only [Part.keeps, Bool.and_eq_true, decide_eq_true_eq, and_assoc, spaceOf_eq_self_iff]

/-! ## Texts that markup keeps -/

/-- Markup drops nothing of a text. -/
def Kept (s : String) : Prop := kept s.toList = s.toList

theorem kept_eq_self_iff : kept cs = cs ↔ ∀ c ∈ cs, 0x20 ≤ c.toNat ∨ c = '\t' ∨ c = '\n' ∨
    c = '\r' := by
  simp only [kept, List.filter_eq_self, Bool.or_eq_true, decide_eq_true_eq, or_assoc]

theorem kept_of_isAllowed {s : String} (h : ∀ c ∈ s.toList, isAllowed c = true) : Kept s := by
  refine kept_eq_self_iff.2 fun c hc => ?_
  obtain ⟨hlarge | htab | hfeed | hreturn, -⟩ := (isAllowed_iff c).1 (h c hc)
  · exact .inl hlarge
  all_goals
    rw [← Char.ofNat_toNat c, ‹c.toNat = _›]
    decide

theorem Plain.kept {s : String} (h : Plain s.toList) : Kept s := h.kept_eq

theorem kept_changeLines {s : String} (h : Kept s) (p : Part) : Kept (changeLines p s) := by
  rw [Kept, changeLines, String.toList_ofList]
  refine kept_eq_self_iff.2 fun c hc => ?_
  rcases mem_lineEnds hc with rfl | hc
  · decide
  · exact kept_eq_self_iff.1 h c hc

theorem kept_changeSpaces {s : String} (h : Kept s) (p : Part) : Kept (changeSpaces p s) := by
  cases p with
  | content => exact h
  | value =>
    rw [Kept, changeSpaces, String.toList_ofList]
    refine kept_eq_self_iff.2 fun c hc => ?_
    obtain ⟨d, hd, rfl⟩ := List.mem_map.1 hc
    unfold spaceOf
    split
    · decide
    · exact kept_eq_self_iff.1 h d hd

end Markup

end TestOrchestrator
