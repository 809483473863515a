import TestOrchestrator.Proofs.ReadBack.Fields
import TestOrchestrator.Proofs.ReadBack.Parsing
/-!
# Scalars that keep their words

* `Value.keepsWords` says which scalars are printed in the words in which they are written.
* `Value.eq_isNull_of_isNothing?` and `Value.exists_node_eq_scalar`: whether such a scalar and what
  is printed for it stand for nothing depends on its value only.
* `Value.mirrors_scalar`: what is printed mirrors what was written.
-/

namespace TestOrchestrator.Yaml

open Quoting Fields Decimal

namespace Value

/-- What a scalar says, without its tag. -/
def words : Value → List Char
  | tagged _ v => words v
  | v => leafText v

/-- Whether a value is null. -/
def isNull : Value → Bool
  | null => true
  | _ => false

/-- Whether a scalar is printed in its own words. It must not be left out, and if its value is null
it must stand for nothing where words are expected. -/
def keepsWords (tag : Option (List UInt8)) (style : Style) (cs : List Char) : Bool :=
  !isBlank style cs && (ofScalar? tag style cs).all fun v =>
    v.words = cs && (!v.isNull || isNothing? tag style cs = some true)

variable {tag : Option (List UInt8)} {style : Style} {cs : List Char} {v w : Value} {b : Bool}

/-! ## Words that stand for nothing -/

theorem isNull_of_unsigned (h : Unsigned cs) (neg : Bool) :
    Plain.isNull (String.ofList (if neg then '-' :: cs else cs)) = false := by
  obtain ⟨d, ds, rfl⟩ : ∃ d ds, cs = d :: ds := by
    cases cs with
    | nil => cases h.first
    | cons d ds => exact ⟨d, ds, rfl⟩
  have hfirst : ∀ e es, Plain.isNull (String.ofList (e :: es)) = true → e = 'n' ∨ e = 'N' ∨
      e = '~' := by
    intro e es hnull
    simp only [Plain.isNull, List.contains_eq_mem, List.mem_cons, List.not_mem_nil, or_false,
      decide_eq_true_eq] at hnull
    rcases hnull with hnull | hnull | hnull | hnull <;>
      · have := congrArg String.toList hnull
        simp at this
        tauto
  rw [Bool.eq_false_iff]
  intro hnull
  cases neg with
  | true => rcases hfirst _ _ hnull with h | h | h <;> cases h
  | false =>
    have hdigit : d.isDigit = true := by simpa using h.first
    rcases hfirst _ _ hnull with rfl | rfl | rfl <;> cases hdigit

/-- What a scalar is, without its tag. -/
def isScalar : Value → Bool
  | str _ => true
  | v => v.isWordLike

/-- The style in which a scalar is printed. -/
def printedStyle : Value → Style
  | str s => Quoting.style s.toList
  | _ => .plain

theorem isNothing?_plain (cs : List Char) :
    isNothing? none .plain cs = some (decide (cs = []) || Plain.isNull (String.ofList cs)) := rfl

theorem isNull_of_ofPlain? (h : ofPlain? cs = some v) :
    (decide (cs = []) || Plain.isNull (String.ofList cs)) = v.isNull := by
  have hwords : (ofWords cs).isNull = false := by
    rw [ofWords]
    split
    · rfl
    · split <;> rfl
  rw [ofPlain?] at h
  split at h
  · cases h
    assumption
  · rename_i hnull
    rw [Bool.not_eq_true] at hnull
    rw [hnull]
    split at h
    · cases h
      rfl
    · split at h
      · split at h
        · cases h
          rfl
        · cases h
        · cases h
          exact hwords.symm
      · cases h
        exact hwords.symm

theorem isNothing?_unsigned (h : Unsigned cs) (neg : Bool) :
    isNothing? none .plain (if neg then '-' :: cs else cs) = some false := by
  have hne := (h.fitsPlain neg).1
  rw [isNothing?_plain, isNull_of_unsigned h neg, decide_eq_false hne]
  rfl

/-- A printed scalar without a tag stands for nothing just when it is null. -/
theorem isNothing?_printed (h : v.isScalar = true) :
    isNothing? none v.printedStyle (leafText v) = some v.isNull := by
  cases v with
  | null => rfl
  | bool b => cases b <;> rfl
  | int n =>
    have htext : leafText (.int n) =
        if decide (n < 0) then '-' :: Decimal.digitsOf n.natAbs else Decimal.digitsOf n.natAbs := by
      by_cases hn : n < 0 <;> simp [leafText, hn]
    rw [htext]
    exact isNothing?_unsigned (Decimal.unsigned_digitsOf n.natAbs) _
  | float x =>
    cases x with
    | nan => rfl
    | infinite neg => cases neg <;> rfl
    | finite neg m e =>
      obtain ⟨cs, hcs, htext⟩ := Decimal.exists_render numbers rfl neg m e
      rw [leafText, htext]
      exact isNothing?_unsigned hcs neg
  | str s =>
    change isNothing? none (Quoting.style s.toList) s.toList = some false
    by_cases hstyle : Quoting.style s.toList = .plain
    · have hreads : readsAsString s.toList = true := by
        rw [Quoting.style] at hstyle
        split_ifs at hstyle with _ _ hplain
        exact (Bool.and_eq_true_iff.1 hplain).1
      rw [hstyle, isNothing?_plain]
      rw [readsAsString] at hreads
      split at hreads
      · rename_i hstr
        rw [isNull_of_ofPlain? hstr]
        rfl
      · cases hreads
    · simp [isNothing?, hstyle]
  | seq | map | tagged => cases h

theorem isBlank_printed (h : v.isScalar = true) : isBlank v.printedStyle (leafText v) = false := by
  have hword : v.isWordLike = true → isBlank .plain (leafText v) = false := by
    intro hword
    rw [isBlank, decide_eq_false (fitsPlain_leafText hword).1, Bool.and_false]
  cases v with
  | null | bool | int | float => exact hword rfl
  | str s =>
    rw [printedStyle, leafText, isBlank]
    rcases style_cases s.toList with ⟨-, hplain⟩ | ⟨hstyle, -⟩ | hstyle | ⟨hstyle, -⟩
    · rw [decide_eq_false hplain.1, Bool.and_false]
    all_goals
      rw [hstyle]
      rfl
  | seq | map | tagged => cases h

/-! ## Tags -/

theorem isNothing?_of_ne {t : List UInt8} (h : t ≠ Tag.common "null") :
    isNothing? (some t) style cs = some false := by
  by_cases hstyle : style = .plain <;> simp [isNothing?, h, hstyle]

/-- The first byte of a common tag is the letter t. -/
theorem common_ne_of_isLocal {t : List UInt8} (h : Tag.isLocal t = true) (name : String) :
    t ≠ Tag.common name := by
  rintro rfl
  have hfirst : (Tag.common name).head? = some 116 := by
    rw [Tag.common, String.toList_append, Text.Utf8.encode_append]
    rfl
  rw [Tag.isLocal, hfirst] at h
  cases h

theorem node_withTag (name : Option String) (v : Value) :
    (withTag name v).node none = v.node (name.map tagBytes) := by
  cases name with
  | none => rfl
  | some name => rw [withTag, node, Option.map_some]

theorem node_of_isScalar (h : v.isScalar = true) (t : Option (List UInt8)) :
    v.node t = .scalar { tag := t } v.printedStyle (leafText v) := by
  cases v with
  | null | bool | int | float | str => rfl
  | seq | map | tagged => cases h

/-- What a scalar can be. -/
theorem ofScalar?_cases (h : ofScalar? tag style cs = some v) :
    (∃ t, tag = some t ∧ forced? t cs = some (some v)) ∨
    (style = .plain ∧ Tag.isOpen tag = true ∧ ∃ w, ofPlain? cs = some w ∧
      v = withTag (tag.bind Tag.name?) w) ∨
    (tag.bind (forced? · cs) = none ∧ (style = .plain → Tag.isOpen tag = false) ∧
      v = withTag (tag.bind Tag.name?) (.str (String.ofList cs))) := by
  rw [ofScalar?] at h
  split at h
  · rename_i hforced
    subst h
    obtain ⟨t, ht, hforced⟩ := Option.bind_eq_some_iff.1 hforced
    exact .inl ⟨t, ht, hforced⟩
  · rename_i hnone
    split at h
    · rename_i hopen
      simp only [Bool.and_eq_true, decide_eq_true_eq] at hopen
      obtain ⟨w, hw, rfl⟩ := Option.map_eq_some_iff.1 h
      exact .inr (.inl ⟨hopen.2, hopen.1, w, hw, rfl⟩)
    · rename_i hopen
      simp only [Bool.and_eq_true, decide_eq_true_eq] at hopen
      cases h
      exact .inr (.inr ⟨hnone, fun hstyle => by simpa [hstyle] using hopen, rfl⟩)

theorem forced?_null (cs : List Char) :
    forced? (Tag.common "null") cs =
      some (if Plain.isNull (String.ofList cs) then some .null else none) := rfl

theorem isScalar_of_forced? {t : List UInt8} (h : forced? t cs = some (some v)) :
    v.isScalar = true := by
  rw [forced?] at h
  split_ifs at h
  · obtain ⟨b, -, rfl⟩ := Option.map_eq_some_iff.1 (Option.some.inj h)
    rfl
  · obtain ⟨n, -, hn⟩ := Option.bind_eq_some_iff.1 (Option.some.inj h)
    split at hn
    · cases hn
      rfl
    · cases hn
  · obtain ⟨x, -, rfl⟩ := Option.map_eq_some_iff.1 (Option.some.inj h)
    rfl
  · cases h
    rfl
  · cases h

theorem isScalar_of_ofPlain? (h : ofPlain? cs = some v) : v.isScalar = true := by
  have hwords : (ofWords cs).isScalar = true := by
    rw [ofWords]
    split
    · rfl
    · split <;> rfl
  rw [ofPlain?] at h
  split_ifs at h
  · cases h
    rfl
  · split at h
    · cases h
      rfl
    · split at h
      · split at h
        · cases h
          rfl
        · cases h
        · cases h
          exact hwords
      · cases h
        exact hwords

/-- **What a scalar stands for is read off its value.** -/
theorem eq_isNull_of_isNothing? (hkeeps : keepsWords tag style cs = true)
    (hv : ofScalar? tag style cs = some v)
    (hb : isNothing? tag style cs = some b) : b = v.isNull := by
  have hother : ∀ t, tag = some t → t ≠ Tag.common "null" → b = false := by
    rintro t rfl ht
    rw [isNothing?_of_ne ht] at hb
    exact (Option.some.inj hb).symm
  cases hnull : v.isNull with
  | true =>
    rw [keepsWords, hv, Bool.and_eq_true] at hkeeps
    have hkept := hkeeps.2
    simp only [Option.all_some, hnull, Bool.not_true, Bool.false_or, Bool.and_eq_true,
      decide_eq_true_eq] at hkept
    rw [hkept.2] at hb
    exact (Option.some.inj hb).symm
  | false =>
    rcases ofScalar?_cases hv with ⟨t, rfl, hforced⟩ | ⟨rfl, hopen, w, hw, rfl⟩ | ⟨hnone,
      hclosed, rfl⟩
    · refine hother t rfl ?_
      rintro rfl
      rw [forced?_null] at hforced
      split at hforced
      · cases hforced
        cases hnull
      · cases hforced
    · cases tag with
      | none =>
        rw [isNothing?_plain, isNull_of_ofPlain? hw] at hb
        rw [← Option.some.inj hb]
        exact hnull
      | some t => exact hother t rfl (common_ne_of_isLocal hopen _)
    · cases tag with
      | none =>
        have hstyle : style ≠ .plain := fun hstyle => by cases hclosed hstyle
        simpa [isNothing?, hstyle] using hb.symm
      | some t =>
        refine hother t rfl ?_
        rintro rfl
        cases hnone

theorem exists_withTag (h : ofScalar? tag style cs = some v) : ∃ name w, v = withTag name w ∧
    w.isScalar = true := by
  rcases ofScalar?_cases h with ⟨t, -, hforced⟩ | ⟨-, -, w, hw, rfl⟩ | ⟨-, -, rfl⟩
  · exact ⟨none, v, rfl, isScalar_of_forced? hforced⟩
  · exact ⟨_, w, rfl, isScalar_of_ofPlain? hw⟩
  · exact ⟨_, _, rfl, rfl⟩

theorem words_of_isScalar (h : v.isScalar = true) : v.words = leafText v := by
  cases v with
  | null | bool | int | float | str => rfl
  | seq | map | tagged => cases h

/-- **What a printed scalar stands for is read off its value.** -/
theorem exists_node_eq_scalar (h : ofScalar? tag style cs = some v) :
    ∃ p style', v.node none = .scalar p style' v.words ∧ isBlank style' v.words = false ∧
      isNothing? p.tag style' v.words = some v.isNull := by
  obtain ⟨name, w, rfl, hw⟩ := exists_withTag h
  rw [node_withTag, node_of_isScalar hw]
  have hwords : (withTag name w).words = leafText w := by
    rw [← words_of_isScalar hw]
    cases name <;> rfl
  rw [hwords]
  refine ⟨_, _, rfl, isBlank_printed hw, ?_⟩
  cases name with
  | none => exact isNothing?_printed hw
  | some name => exact isNothing?_of_ne (common_ne_of_isLocal rfl _)

/-- **A scalar that keeps its words is mirrored** by what is printed for it. -/
theorem mirrors_scalar {d : Document} {n : Node} {p : Properties}
    (htarget : d.target? n = some (.scalar p style cs))
    (hkeeps : keepsWords p.tag style cs = true) (hv : ofScalar? p.tag style cs = some v) :
    Mirrors d n (v.node none) := by
  obtain ⟨p', style', hnode, hblank, hnothing⟩ := exists_node_eq_scalar hv
  have hwords : v.words = cs ∧ isBlank style cs = false := by
    have hkept := hkeeps
    simp only [keepsWords, hv, Option.all_some, Bool.and_eq_true, Bool.not_eq_true',
      decide_eq_true_eq] at hkept
    exact ⟨hkept.2.1, hkept.1⟩
  rw [hwords.1] at hnode hblank hnothing
  rw [hnode]
  refine .scalar htarget hwords.2 hblank fun b hb => ?_
  rw [hnothing, eq_isNull_of_isNothing? hkeeps hv hb]

end Value

end TestOrchestrator.Yaml
