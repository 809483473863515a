import TestOrchestrator.Proofs.ReadBack.Digits
import TestOrchestrator.Proofs.ReadBack.PlainText
import TestOrchestrator.Yaml.Value.Printer
/-!
# Numbers as plain text

* `Value.fitsPlain_leafText`: nulls, truth values and numbers are written so that they can stand as
  plain text.
-/

namespace TestOrchestrator

namespace Yaml.Quoting

/-- The characters of written numbers. -/
def isNumeric (d : Char) : Bool := isWord d || d = '.'

variable {cs ds : List Char} {d : Char}

theorem isNumeric_iff : isNumeric d = true ↔ (48 ≤ d.toNat ∧ d.toNat ≤ 57) ∨
    (65 ≤ d.toNat ∧ d.toNat ≤ 90) ∨
    (97 ≤ d.toNat ∧ d.toNat ≤ 122) ∨ d = '_' ∨ d = '-' ∨ d = '.' := by
  simp only [isNumeric, isWord, Bool.or_eq_true, Bool.and_eq_true, decide_eq_true_eq, Char.le_def,
    UInt32.le_iff_toNat_le]
  change (((((48 ≤ d.toNat ∧ d.toNat ≤ 57) ∨ 65 ≤ d.toNat ∧ d.toNat ≤ 90) ∨ 97 ≤ d.toNat ∧
    d.toNat ≤ 122) ∨ _) ∨ _) ∨ _ ↔ _
  tauto

theorem toNat_of_isNumeric (h : isNumeric d = true) : 45 ≤ d.toNat ∧ d.toNat ≤ 122 ∧ d.toNat ≠ 47 ∧
    ¬(58 ≤ d.toNat ∧ d.toNat ≤ 64) := by
  rcases isNumeric_iff.1 h with h | h | h | rfl | rfl | rfl
  · omega
  · omega
  · omega
  · decide
  · decide
  · decide

theorem ne_of_isNumeric {e : Char} (h : isNumeric d = true) (he : isNumeric e = false) : d ≠ e := by
  rintro rfl
  rw [h] at he
  cases he

theorem isPrintable_of_isNumeric (h : isNumeric d = true) :
    isPrintable d = true ∧ isGap (some d) = false := by
  have hrange := toNat_of_isNumeric h
  constructor
  · simp only [isPrintable, Bool.or_eq_true, Bool.and_eq_true, decide_eq_true_eq]
    omega
  · simp only [isGap, isSpace, isBreak, Bool.or_eq_false_iff, decide_eq_false_iff_not]
    refine ⟨⟨?_, ?_⟩, ⟨⟨⟨?_, ?_⟩, ?_⟩, ?_⟩, ?_⟩
    · exact ne_of_isNumeric h rfl
    · exact ne_of_isNumeric h rfl
    · exact ne_of_isNumeric h rfl
    · exact ne_of_isNumeric h rfl
    · omega
    · omega
    · omega

theorem isMark_of_isNumeric (h : isNumeric d = true) : isMark d = false := by
  by_contra hmark
  have hmem : isMark d = true := by simpa using hmark
  simp only [isMark, isFlowMark, Bool.or_eq_true, decide_eq_true_eq, List.contains_eq_mem,
    List.mem_cons, List.not_mem_nil, or_false] at hmem
  rcases hmem with ((((rfl | rfl) | rfl) | rfl) | rfl) | rfl | rfl | rfl | rfl | rfl | rfl | rfl |
    rfl | rfl | rfl | rfl
  all_goals cases h

theorem adjacent_of_not_second {p q : Char → Bool} (h : ∀ d ∈ cs, q d = false) :
    adjacent p q cs = false := by
  induction cs with
  | nil => rfl
  | cons d cs ih =>
    cases cs with
    | nil => rfl
    | cons e cs =>
      have he := h e (by simp)
      rw [adjacent, he, ih fun x hx => h x (List.mem_cons_of_mem _ hx)]
      simp

theorem hasColon_of_not_mem (h : ∀ d ∈ cs, d ≠ ':') : hasColon cs = false := by
  induction cs with
  | nil => rfl
  | cons d cs ih =>
    have hd := h d List.mem_cons_self
    rw [hasColon, ih fun x hx => h x (List.mem_cons_of_mem _ hx)]
    simp [hd]

/-- Text of the characters of numbers, unless it could be a mark. -/
theorem fitsPlain_of_isNumeric (hcs : ∀ e ∈ d :: ds, isNumeric e = true)
    (hdash : d = '-' → ∃ e es, ds = e :: es ∧ e ≠ '-') (hdot : d ≠ '.') : FitsPlain (d :: ds) := by
  refine ⟨List.cons_ne_nil _ _, ?_⟩
  have hd := hcs d List.mem_cons_self
  have hprintable : (d :: ds).all isPrintable = true :=
    List.all_eq_true.2 fun e he => (isPrintable_of_isNumeric (hcs e he)).1
  have hgap : ∀ e ∈ d :: ds, (e = ' ' || isBreak e) = false := by
    intro e he
    have hgap := (isPrintable_of_isNumeric (hcs e he)).2
    rw [isGap, Bool.or_eq_false_iff] at hgap
    rw [hgap.2, Bool.or_false]
    exact decide_eq_false (ne_of_isNumeric (hcs e he) rfl)
  have hbreak : (d :: ds).any isBreak = false := by
    rw [List.any_eq_false]
    intro e he
    have he' := hgap e he
    rw [Bool.or_eq_false_iff] at he'
    simp [he'.2]
  have hloose : hasLooseEnd (d :: ds) = false := by
    rw [hasLooseEnd, Bool.or_eq_false_iff]
    constructor
    · exact hgap d List.mem_cons_self
    · cases hlast : (d :: ds).getLast? with
      | none => rfl
      | some e => exact hgap e (List.mem_of_getLast? hlast)
  have hcolon : hasColon (d :: ds) = false := hasColon_of_not_mem fun e he =>
    ne_of_isNumeric (hcs e he) rfl
  have hcomment : adjacent (fun c => isEnd (some c)) (· = '#') (d :: ds) = false :=
    adjacent_of_not_second fun e he => decide_eq_false (ne_of_isNumeric (hcs e he) rfl)
  have hquestion : d ≠ '?' := ne_of_isNumeric hd rfl
  have hmark : hasMark (d :: ds) = false := by
    rw [hasMark, hcolon, hcomment, isMark_of_isNumeric hd]
    by_cases hd' : d = '-'
    · obtain ⟨e, es, rfl, hnext⟩ := hdash hd'
      have he := hcs e (by simp)
      have hnull : e ≠ Char.ofNat 0 := ne_of_isNumeric he rfl
      simp [hdot, isEnd, (isPrintable_of_isNumeric he).2, hnull, hnext]
    · simp [hdot, hd', hquestion]
  rw [allowsPlain, hprintable, hbreak, hloose, hmark]
  rfl

theorem isNumeric_of_isDigit (h : d.isDigit = true) : isNumeric d = true := by
  have hword : isWord d = true := by
    simp only [Char.isDigit, Bool.and_eq_true, decide_eq_true_eq] at h
    simp only [isWord, Bool.or_eq_true, Bool.and_eq_true, decide_eq_true_eq]
    exact .inl (.inl (.inl (.inl h)))
  rw [isNumeric, hword, Bool.true_or]

/-- A text that begins like an unsigned number. -/
structure Unsigned (cs : List Char) : Prop where
  first : cs.head?.any Char.isDigit = true
  numeric : ∀ d ∈ cs, isNumeric d = true

/-- A number, with a sign or not. -/
theorem Unsigned.fitsPlain (h : Unsigned cs) (neg : Bool) :
    FitsPlain (if neg then '-' :: cs else cs) := by
  obtain ⟨d, ds, rfl⟩ : ∃ d ds, cs = d :: ds := by
    cases cs with
    | nil => cases h.first
    | cons d ds => exact ⟨d, ds, rfl⟩
  have hdigit : d.isDigit = true := by simpa using h.first
  have hdash : d ≠ '-' := by
    rintro rfl
    cases hdigit
  have hdot : d ≠ '.' := by
    rintro rfl
    cases hdigit
  cases neg with
  | false =>
    exact fitsPlain_of_isNumeric h.numeric (fun hd => absurd hd hdash) hdot
  | true =>
    have hall : ∀ e ∈ '-' :: d :: ds, isNumeric e = true := List.forall_mem_cons.2 ⟨rfl, h.numeric⟩
    exact fitsPlain_of_isNumeric hall (fun _ => ⟨d, ds, rfl, hdash⟩) (by decide)

end Yaml.Quoting

/-! ## Digits -/

namespace Decimal

open Yaml.Quoting

theorem unsigned_digitsOf (n : Nat) : Unsigned (digitsOf n) := by
  obtain ⟨d, ds, hds, hd⟩ := exists_digitsOf n
  refine ⟨by simp [hds, hd], fun e he => isNumeric_of_isDigit (isDigit_of_mem_digitsOf he)⟩

theorem unsigned_positional (n : Nat) (point : Int) :
    Unsigned (Layout.positional (digitsOf n) point) := by
  obtain ⟨d, ds, hds, hd⟩ := exists_digitsOf n
  have hdigits : ∀ e ∈ digitsOf n, isNumeric e = true := (unsigned_digitsOf n).numeric
  have hzeros : ∀ k, ∀ e ∈ List.replicate k '0', isNumeric e = true := by
    intro k e he
    rw [List.eq_of_mem_replicate he]
    rfl
  simp only [Layout.positional]
  split_ifs with hpoint hshort
  · refine ⟨rfl, ?_⟩
    simp only [List.mem_cons, List.mem_append]
    rintro e (rfl | rfl | he | he)
    · rfl
    · rfl
    · exact hzeros _ e he
    · exact hdigits e he
  · refine ⟨by simp [hds, hd], ?_⟩
    simp only [List.mem_append, List.mem_cons, List.not_mem_nil, or_false]
    rintro e ((he | he) | rfl | rfl)
    · exact hdigits e he
    · exact hzeros _ e he
    · rfl
    · rfl
  · obtain ⟨k, hk⟩ : ∃ k, point.toNat = k + 1 := ⟨point.toNat - 1, by omega⟩
    refine ⟨by simp [hds, hd, hk], ?_⟩
    simp only [List.mem_append, List.mem_cons]
    rintro e (he | rfl | he)
    · exact hdigits e (List.mem_of_mem_take he)
    · rfl
    · exact hdigits e (List.mem_of_mem_drop he)

theorem unsigned_scientific (l : Layout) (hplus : l.plus = false) (n : Nat) (x : Int) :
    Unsigned (l.scientific (digitsOf n) x) := by
  obtain ⟨d, ds, hds, hd⟩ := exists_digitsOf n
  have hdigits : ∀ m, ∀ e ∈ digitsOf m, isNumeric e = true := fun m => (unsigned_digitsOf m).numeric
  have hsign : ∀ e ∈ (if x < 0 then ['-'] else if l.plus then ['+'] else []),
      isNumeric e = true := by
    intro e he
    rw [hplus, if_neg Bool.false_ne_true] at he
    split_ifs at he
    · rw [List.mem_singleton.1 he]
      rfl
    · cases he
  have hshape : ∃ es, l.scientific (digitsOf n) x =
      d :: es ++ 'e' :: ((if x < 0 then ['-'] else if l.plus then ['+'] else []) ++
        digitsOf x.natAbs) ∧
        ∀ e ∈ es, isNumeric e = true := by
    have hmem := hdigits n
    rw [hds] at hmem
    cases ds with
    | nil => exact ⟨[], by simp [Layout.scientific, hds], nofun⟩
    | cons e es =>
      exact ⟨'.' :: e :: es, by simp [Layout.scientific, hds],
        List.forall_mem_cons.2 ⟨rfl, (List.forall_mem_cons.1 hmem).2⟩⟩
  obtain ⟨es, hes, hnumeric⟩ := hshape
  rw [hes]
  refine ⟨by simp [hd], ?_⟩
  intro e he
  rw [List.mem_append, List.mem_cons, List.mem_cons, List.mem_append] at he
  rcases he with (rfl | he) | rfl | he | he
  · exact isNumeric_of_isDigit hd
  · exact hnumeric e he
  · rfl
  · exact hsign e he
  · exact hdigits _ e he

/-- **A finite double begins with a digit, behind its sign.** -/
theorem exists_render (l : Layout) (hplus : l.plus = false) (neg : Bool) (m : Nat) (e : Int) :
    ∃ cs, Unsigned cs ∧ (l.render (.finite neg m e)).toList = if neg then '-' :: cs else cs := by
  rw [Layout.render]
  simp only [String.toList_ofList]
  split_ifs with hneg hm hpoint
  all_goals refine ⟨_, ?_, rfl⟩
  · exact ⟨rfl, List.all_eq_true.1 rfl⟩
  · exact unsigned_positional ..
  · exact unsigned_scientific l hplus ..
  · exact ⟨rfl, List.all_eq_true.1 rfl⟩
  · exact unsigned_positional ..
  · exact unsigned_scientific l hplus ..

end Decimal

namespace Yaml.Value

open Quoting Decimal

/-- A value that is written as one word: neither text nor a collection. -/
def isWordLike : Value → Bool
  | null | bool _ | int _ | float _ => true
  | _ => false

/-- **Nulls, truth values and numbers can stand as plain text.** -/
theorem fitsPlain_leafText {v : Value} (h : v.isWordLike = true) : FitsPlain (leafText v) := by
  cases v with
  | null => exact ⟨by decide, by decide⟩
  | bool b => cases b <;> exact ⟨by decide, by decide⟩
  | int n =>
    have htext : leafText (.int n) =
        if decide (n < 0) then '-' :: digitsOf n.natAbs else digitsOf n.natAbs := by
      by_cases hn : n < 0 <;> simp [leafText, hn]
    rw [htext]
    exact (unsigned_digitsOf n.natAbs).fitsPlain _
  | float x =>
    cases x with
    | nan => exact ⟨by decide, by decide⟩
    | infinite neg => cases neg <;> exact ⟨by decide, by decide⟩
    | finite neg m e =>
      obtain ⟨cs, hcs, htext⟩ := exists_render numbers rfl neg m e
      rw [leafText, htext]
      exact hcs.fitsPlain neg
  | str | seq | map | tagged => cases h

end Yaml.Value

end TestOrchestrator
