import Mathlib.Algebra.Group.Nat.Defs
import TestOrchestrator.Proofs.ReadBack.Places
import TestOrchestrator.Proofs.SideBySide
/-!
# Text between quotes

* `Scalar.escaped_cases` says how a character is written between double quotes;
  `Scalar.quotedWord?_eq` reads a word between quotes of either kind.
* `Scalar.Quoted double n cs written` says that `written` is the text `cs` between quotes: words and
  the gaps between them. `Scalar.quoted?_eq` reads it.
-/

namespace TestOrchestrator.Yaml

/-! ## Escapes by number -/

namespace Scalar

/-- The number that hexadecimal digits write. -/
def hexNumber? (cs : List Char) : Option Nat :=
  (cs.mapM hexDigit?).map (·.foldl (fun v d => v * 16 + d) 0)

theorem hexDigit?_toUpper_digitChar : ∀ d < 16, hexDigit? (Nat.digitChar d).toUpper = some d := by
  decide

theorem hexNumber?_concat {cs : List Char} {n d : Nat} (h : hexNumber? cs = some n) (hd : d < 16) :
    hexNumber? (cs ++ [(Nat.digitChar d).toUpper]) = some (n * 16 + d) := by
  unfold hexNumber? at h ⊢
  obtain ⟨ds, hds, rfl⟩ := Option.map_eq_some_iff.1 h
  rw [List.mapM_append, hds]
  simp [hexDigit?_toUpper_digitChar d hd]

theorem hexNumber?_toDigits (n : Nat) :
    hexNumber? ((Nat.toDigits 16 n).map Char.toUpper) = some n := by
  induction n using Nat.strongRecOn with
  | ind n ih =>
    by_cases hn : n < 16
    · rw [Nat.toDigits_of_lt_base hn]
      have hnil : hexNumber? [] = some 0 := rfl
      simpa using hexNumber?_concat hnil hn
    · have hdiv : n / 16 < n := by omega
      rw [Nat.toDigits_of_base_le (by omega) (by omega), List.map_append]
      have h := hexNumber?_concat (ih (n / 16) hdiv) (Nat.mod_lt n (by omega : 0 < 16))
      rw [Nat.div_add_mod'] at h
      exact h

theorem hexNumber?_zeros {cs : List Char} {n : Nat} (k : Nat) (h : hexNumber? cs = some n) :
    hexNumber? (List.replicate k '0' ++ cs) = some n := by
  induction k with
  | zero => exact h
  | succ k ih =>
    unfold hexNumber? at ih ⊢
    obtain ⟨ds, hds, rfl⟩ := Option.map_eq_some_iff.1 ih
    rw [List.replicate_succ, List.cons_append, List.mapM_cons, hds]
    rfl

theorem isBreak_of_hexDigit? {c : Char} {n : Nat} (h : hexDigit? c = some n) :
    isBreak c = false := by
  have hnat : c.toNat ≠ 10 ∧ c.toNat ≠ 13 ∧ c.toNat < 0x85 := by
    simp only [hexDigit?, Bool.and_eq_true, decide_eq_true_eq, Char.le_def,
      UInt32.le_iff_toNat_le] at h
    change (if 48 ≤ c.toNat ∧ c.toNat ≤ 57 then _ else if 65 ≤ c.toNat ∧ c.toNat ≤ 70 then _ else
      if 97 ≤ c.toNat ∧ c.toNat ≤ 102 then _ else _) = _ at h
    split_ifs at h <;> omega
  obtain ⟨h10, h13, hbound⟩ := hnat
  have hfeed : c ≠ '\n' := by rintro rfl; exact h10 rfl
  have hreturn : c ≠ '\r' := by rintro rfl; exact h13 rfl
  simp only [isBreak, Bool.or_eq_false_iff, decide_eq_false_iff_not]
  exact ⟨⟨⟨⟨hfeed, hreturn⟩, by omega⟩, by omega⟩, by omega⟩

end Scalar

namespace Quoting

theorem length_hex {k n : Nat} (hk : 0 < k) (hn : n < 16 ^ k) : (hex k n).length = k := by
  have hlen : (Nat.toDigits 16 n).length ≤ k := (Nat.length_toDigits_le_iff (by omega) hk).2 hn
  simp only [hex, List.length_append, List.length_replicate, List.length_map]
  omega

open Scalar in
/-- A character that is written by its number. -/
theorem hexChar?_hex {k : Nat} {d : Char} (hk : 0 < k) (hd : d.toNat < 16 ^ k) (rest : List Char) :
    hexChar? k (hex k d.toNat ++ rest) = some d := by
  have hnumber : hexNumber? (hex k d.toNat) = some d.toNat :=
    hexNumber?_zeros _ (hexNumber?_toDigits _)
  obtain ⟨ds, hds, hvalue⟩ := Option.map_eq_some_iff.1 hnumber
  have hlen : ds.length = k := (forall₂_of_mapM hds).length_eq.symm.trans (length_hex hk hd)
  have htake : (hex k d.toNat ++ rest).take k = hex k d.toNat := List.take_left' (length_hex hk hd)
  have hvalid : ¬(0xD800 ≤ d.toNat ∧ d.toNat ≤ 0xDFFF) ∧ ¬0x10FFFF < d.toNat := by
    have h : d.toNat < 0xD800 ∨ (0xDFFF < d.toNat ∧ d.toNat < 0x110000) := d.valid
    omega
  unfold hexChar?
  rw [htake, hds]
  simp only [Option.bind_eq_bind, Option.bind_some, hlen, if_true, hvalue]
  rw [if_neg (by simpa using hvalid), Char.ofNat_toNat]

theorem exists_hexDigit?_of_mem {k n : Nat} {d : Char} (h : d ∈ hex k n) :
    ∃ v, Scalar.hexDigit? d = some v := by
  have hnumber : Scalar.hexNumber? (hex k n) = some n :=
    Scalar.hexNumber?_zeros _ (Scalar.hexNumber?_toDigits n)
  obtain ⟨ds, hds, -⟩ := Option.map_eq_some_iff.1 hnumber
  have hdigits := forall₂_of_mapM hds
  clear hds hnumber
  generalize hex k n = cs at h hdigits
  induction hdigits with
  | nil => cases h
  | cons hd _ ih =>
    rcases List.mem_cons.1 h with rfl | h
    · exact ⟨_, hd⟩
    · exact ih h

theorem any_isBreak_hex (k n : Nat) : (hex k n).any isBreak = false := by
  rw [List.any_eq_false]
  intro d hd
  obtain ⟨v, hv⟩ := exists_hexDigit?_of_mem hd
  simp [Scalar.isBreak_of_hexDigit? hv]

/-- A character between quotes. -/
def within (double : Bool) (c : Char) : List Char :=
  if double then escaped c else if c = '\'' then ['\'', '\''] else [c]

/-- A character of a word between quotes. Single quotes hold what needs no escape. -/
def InWord (double : Bool) (d : Char) : Prop :=
  d ≠ ' ' ∧ (double = false → isPrintable d = true ∧ isBreak d = false)

theorem isSpace_of_isPrintable {d : Char} (h : isPrintable d = true) (hd : d ≠ ' ') :
    isSpace d = false := by
  have htab : d ≠ '\t' := by rintro rfl; simp [isPrintable] at h
  simp [isSpace, hd, htab]

end Quoting

namespace Scalar

open Quoting

variable {c : Cursor} {d e : Char} {word rest : List Char} {fuel k : Nat} {double : Bool}

theorem quotedWord?_escape {x : Char} (hc : c.rest = '\\' :: e :: rest) (hbreak : isBreak e = false)
    (hlength : hexLength? e = none) (hx : escape? e = some x) :
    quotedWord? true (fuel + 1) word c = quotedWord? true fuel (word ++ [x]) (c.skip 2) := by
  rw [quotedWord?, hc]
  simp [isSpace, hbreak, hlength, hx, show isBreak '\\' = false from rfl]

theorem quotedWord?_hex (hc : c.rest = '\\' :: e :: (hex k d.toNat ++ rest))
    (hbreak : isBreak e = false)
    (hlength : hexLength? e = some k) (hk : 0 < k) (hd : d.toNat < 16 ^ k) :
    quotedWord? true (fuel + 1) word c = quotedWord? true fuel (word ++ [d]) (c.skip (k + 2)) := by
  rw [quotedWord?, hc]
  simp [isSpace, hbreak, hlength, hexChar?_hex hk hd, show isBreak '\\' = false from rfl]

/-- How a character is written between double quotes: as it is, by a letter, or by its number. -/
theorem escaped_cases (d : Char) :
    (escaped d = [d] ∧ isPrintable d = true ∧ isBreak d = false ∧ d ≠ '"' ∧ d ≠ '\\') ∨
    (∃ e, escaped d = ['\\', e] ∧ isPrintable e = true ∧ isBreak e = false ∧ hexLength? e = none ∧
      escape? e = some d) ∨
    ∃ e k, escaped d = '\\' :: e :: hex k d.toNat ∧ isPrintable e = true ∧ isBreak e = false ∧
      hexLength? e = some k ∧ (k = 2 ∨ (k = 4 ∧ 0x100 ≤ d.toNat) ∨ (k = 8 ∧ 0x10000 ≤ d.toNat)) ∧
      d.toNat < 16 ^ k := by
  by_cases hquote : d = '"' ∨ d = '\\'
  · have hescaped : escaped d = ['\\', d] := by simp [escaped, hquote]
    rcases hquote with rfl | rfl
    · exact .inr (.inl ⟨_, hescaped, rfl, rfl, rfl, rfl⟩)
    · exact .inr (.inl ⟨_, hescaped, rfl, rfl, rfl, rfl⟩)
  by_cases hplain : isPrintable d = true ∧ isBreak d = false
  · have hescaped : escaped d = [d] := by simp [escaped, hquote, hplain.1, hplain.2]
    exact .inl ⟨hescaped, hplain.1, hplain.2, not_or.1 hquote⟩
  have hletter : ∀ {n : Nat} {e : Char}, d.toNat = n → escape? e = some (Char.ofNat n) →
      escape? e = some d := by
    intro n e hd he
    rw [he, ← hd, Char.ofNat_toNat]
  have hcode : d.toNat < 0x110000 := by
    have h : d.toNat < 0xD800 ∨ (0xDFFF < d.toNat ∧ d.toNat < 0x110000) := d.valid
    omega
  unfold escaped
  rw [if_neg (by simpa using hquote), if_neg (by simpa using hplain)]
  split
  case h_13 =>
    right
    right
    split_ifs with hbyte hword
    · exact ⟨'x', 2, rfl, rfl, rfl, rfl, .inl rfl, by omega⟩
    · exact ⟨'u', 4, rfl, rfl, rfl, rfl, .inr (.inl ⟨rfl, by omega⟩), by omega⟩
    · exact ⟨'U', 8, rfl, rfl, rfl, rfl, .inr (.inr ⟨rfl, by omega⟩), by omega⟩
  all_goals
    rename_i hd
    exact .inr (.inl ⟨_, rfl, rfl, rfl, rfl, hletter hd rfl⟩)

theorem quotedWord?_within (hd : InWord double d) (hc : c.rest = within double d ++ rest) :
    quotedWord? double (fuel + 1) word c =
      quotedWord? double fuel (word ++ [d]) (c.past (within double d)) := by
  obtain ⟨hblank, hsingle⟩ := hd
  cases double with
  | false =>
    obtain ⟨hprintable, hbreak⟩ := hsingle rfl
    have hspace := isSpace_of_isPrintable hprintable hblank
    by_cases hquote : d = '\''
    · subst hquote
      have hpast : c.past ['\'', '\''] = c.skip 2 := Cursor.past_eq_skip rfl
      change c.rest = '\'' :: '\'' :: rest at hc
      change _ = quotedWord? false fuel _ (c.past ['\'', '\''])
      rw [quotedWord?, hc, hpast]
      simp [isSpace, isBreak]
    · have hwithin : within false d = [d] := by simp [within, hquote]
      rw [hwithin] at hc ⊢
      rw [quotedWord?, hc, Cursor.past_eq_skip (by simp [hbreak])]
      simp [hspace, hbreak, hquote]
  | true =>
    change c.rest = escaped d ++ rest at hc
    change _ = quotedWord? true fuel _ (c.past (escaped d))
    have hmark : isBreak '\\' = false := rfl
    rcases escaped_cases d with ⟨hescaped, hprintable, hbreak, hquote, hslash⟩ |
      ⟨e, hescaped, -, hbreak, hlength, hx⟩ | ⟨e, k, hescaped, -, hbreak, hlength, hk, hd⟩
    · have hspace := isSpace_of_isPrintable hprintable hblank
      rw [hescaped] at hc ⊢
      rw [quotedWord?, hc, Cursor.past_eq_skip (by simp [hbreak])]
      simp [hspace, hbreak, hquote, hslash]
    · rw [hescaped] at hc ⊢
      rw [quotedWord?_escape hc hbreak hlength hx, Cursor.past_eq_skip (by simp [hbreak, hmark])]
      rfl
    · have hpos : 0 < k := by omega
      rw [hescaped] at hc ⊢
      rw [quotedWord?_hex hc hbreak hlength hpos hd,
        Cursor.past_eq_skip (by simp [hbreak, hmark, any_isBreak_hex]), List.length_cons,
        List.length_cons, length_hex hpos hd]

/-- The mark around quoted text. -/
def quote (double : Bool) : Char := if double then '"' else '\''

/-- What ends a word between quotes. -/
def EndsWord (double : Bool) : List Char → Prop
  | [] => True
  | d :: ds => isSpace d = true ∨ isBreak d = true ∨
      (d = quote double ∧ (double = false → ds.head? ≠ some '\''))

theorem quotedWord?_end (hend : EndsWord double c.rest) :
    quotedWord? double (fuel + 1) word c = some (word, c, .here) := by
  rw [quotedWord?]
  cases hc : c.rest with
  | nil => rfl
  | cons d ds =>
    rw [hc] at hend
    rcases hend with hspace | hbreak | ⟨rfl, hnext⟩
    · simp [hspace]
    · simp [hbreak]
    · cases double with
      | false => simp [quote, hnext rfl, isSpace, isBreak]
      | true => simp [quote, isSpace, isBreak]

theorem quotedWord?_eq {w : List Char} (hw : ∀ d ∈ w, InWord double d)
    (hc : c.rest = w.flatMap (within double) ++ rest) (hend : EndsWord double rest)
    (hfuel : w.length < fuel) :
    quotedWord? double fuel word c =
      some (word ++ w, c.past (w.flatMap (within double)), .here) := by
  induction w generalizing c word fuel with
  | nil =>
    obtain ⟨fuel, rfl⟩ : ∃ k, fuel = k + 1 := ⟨fuel - 1, by omega⟩
    rw [quotedWord?_end (by rw [hc]; exact hend)]
    simp
  | cons d w ih =>
    rw [List.length_cons] at hfuel
    obtain ⟨fuel, rfl⟩ : ∃ k, fuel = k + 1 := ⟨fuel - 1, by omega⟩
    obtain ⟨hd, hw⟩ := List.forall_mem_cons.1 hw
    rw [List.flatMap_cons, List.append_assoc] at hc
    rw [quotedWord?_within hd hc, ih hw (Cursor.rest_past_of hc) (by omega), List.flatMap_cons,
      Cursor.past_append, List.append_assoc, List.singleton_append]

/-! ## Words and gaps -/

/-- A gap in a text and how it is written: spaces as they are, separators of lines and paragraphs
with the indentation of the next line behind them. -/
inductive Between (n : Nat) : List Char → List Char → Prop
  | spaces (k : Nat) : Between n (pad (k + 1)) (pad (k + 1))
  | breaks {b : Char} {bs : List Char}
      (separators : ∀ d ∈ b :: bs, d.toNat = 0x2028 ∨ d.toNat = 0x2029)
      (indented : 0 < n) : Between n (b :: bs) (b :: bs ++ pad n)

/-- A text and how it is written between quotes, word by word. -/
inductive Quoted (double : Bool) (n : Nat) : List Char → List Char → Prop
  | word {w : List Char} (inside : ∀ d ∈ w, InWord double d) :
      Quoted double n w (w.flatMap (within double))
  | gap {w s s' t t' : List Char} (inside : ∀ d ∈ w, InWord double d) (between : Between n s s')
      (solid : Solid t') (after : Quoted double n t t') :
      Quoted double n (w ++ s ++ t) (w.flatMap (within double) ++ s' ++ t')

theorem Gap.over_append {g : Gap} {s t : List Char} : g.over (s ++ t) = (g.over s).over t :=
  List.foldl_append

theorem Gap.over_pad_of_broken {g : Gap} (h : g.broken = true) (k : Nat) : g.over (pad k) = g := by
  induction k with
  | zero => rfl
  | succ k ih =>
    have hthen : g.then ' ' = g := by simp [Gap.then, isBreak, h]
    rw [pad, List.replicate_succ, Gap.over_cons, hthen]
    exact ih

theorem Gap.over_pad {g : Gap} (h : g.broken = false) (k : Nat) :
    g.over (pad k) = { g with spaces := g.spaces ++ pad k } := by
  induction k generalizing g with
  | zero => simp [pad, Gap.over]
  | succ k ih =>
    have hthen : g.then ' ' = { g with spaces := g.spaces ++ [' '] } := by
      simp [Gap.then, isBreak, h]
    have hpad : pad (k + 1) = ' ' :: pad k := List.replicate_succ
    rw [hpad, Gap.over_cons, hthen, ih (g := { g with spaces := g.spaces ++ [' '] }) h]
    simp

theorem isBreak_of_separator {d : Char} (h : d.toNat = 0x2028 ∨ d.toNat = 0x2029) :
    isBreak d = true ∧ d ≠ '\r' ∧ d ≠ '\n' := by
  refine ⟨?_, ?_, ?_⟩
  · rcases h with h | h <;> simp [isBreak, h]
  · rintro rfl
    simp at h
  · rintro rfl
    simp at h

theorem Gap.over_separators {g : Gap} {bs : List Char} (h : g.broken = true)
    (hbs : ∀ d ∈ bs, d.toNat = 0x2028 ∨ d.toNat = 0x2029) :
    g.over bs = { g with more := g.more ++ bs } := by
  induction bs generalizing g with
  | nil => simp [Gap.over]
  | cons d bs ih =>
    obtain ⟨hd, hbs⟩ := List.forall_mem_cons.1 hbs
    have hthen : g.then d = { g with more := g.more ++ [d] } := by
      simp [Gap.then, (isBreak_of_separator hd).1, hd, Gap.takeBreak, h]
    rw [Gap.over_cons, hthen, ih (g := { g with more := g.more ++ [d] }) h hbs]
    simp

namespace Between

variable {n : Nat} {s s' : List Char}

theorem blank (h : Between n s s') : Blank s' := by
  cases h with
  | spaces k => exact fun d hd => .inl (List.eq_of_mem_replicate hd)
  | breaks separators indented =>
    intro d hd
    rcases List.mem_append.1 hd with hd | hd
    · have hbreak := isBreak_of_separator (separators d hd)
      exact .inr ⟨hbreak.1, hbreak.2.1⟩
    · exact .inl (List.eq_of_mem_replicate hd)

theorem text_over (h : Between n s s') : (({} : Gap).over s').text = s := by
  cases h with
  | spaces k => rw [Gap.over_pad rfl]; rfl
  | @breaks b bs separators indented =>
    obtain ⟨hb, hbs⟩ := List.forall_mem_cons.1 separators
    obtain ⟨hbreak, -, hfeed⟩ := isBreak_of_separator hb
    have hthen : ({} : Gap).then b = { first := [b], broken := true } := by
      simp [Gap.then, hbreak, hb, Gap.takeBreak]
    rw [Gap.over_append, Gap.over_cons, hthen, Gap.over_separators rfl hbs,
      Gap.over_pad_of_broken rfl]
    simp [Gap.text, hfeed]

theorem head?_eq (h : Between n s s') :
    ∃ d ds, s' = d :: ds ∧ (isSpace d = true ∨ isBreak d = true) := by
  cases h with
  | spaces k => exact ⟨' ', pad k, rfl, .inl rfl⟩
  | @breaks b bs separators indented =>
    exact ⟨b, bs ++ pad n, rfl, .inr (isBreak_of_separator (separators b List.mem_cons_self)).1⟩

theorem column_past (h : Between n s s') : 0 < (c.past s').column := by
  cases h with
  | spaces k =>
    rw [Cursor.past_pad]
    exact Nat.lt_of_lt_of_le (Nat.succ_pos k) (Nat.le_add_left ..)
  | breaks separators indented =>
    rw [Cursor.past_append, Cursor.past_pad]
    exact Nat.lt_of_lt_of_le indented (Nat.le_add_left ..)

end Between

theorem any_isBreak_within (hd : InWord double d) : (within double d).any isBreak = false := by
  cases double with
  | false =>
    have hbreak := (hd.2 rfl).2
    by_cases hquote : d = '\''
    · subst hquote
      rfl
    · simp [within, hquote, hbreak]
  | true =>
    change (escaped d).any isBreak = false
    have hmark : isBreak '\\' = false := rfl
    rcases escaped_cases d with ⟨hescaped, -, hbreak, -⟩ | ⟨e, hescaped, -, hbreak, -⟩ |
      ⟨e, k, hescaped, -, hbreak, -⟩
    · simp [hescaped, hbreak]
    · simp [hescaped, hbreak, hmark]
    · rw [hescaped, List.any_cons, List.any_cons, hbreak, hmark, any_isBreak_hex]
      rfl

theorem length_pos_within (double : Bool) (d : Char) : 0 < (within double d).length := by
  cases double with
  | false => by_cases hquote : d = '\'' <;> simp [within, hquote]
  | true =>
    change 0 < (escaped d).length
    rcases escaped_cases d with ⟨hescaped, -⟩ | ⟨e, hescaped, -⟩ | ⟨e, k, hescaped, -⟩ <;>
      simp [hescaped]

theorem length_le_words (double : Bool) (w : List Char) :
    w.length ≤ (w.flatMap (within double)).length := by
  induction w with
  | nil => exact Nat.le_refl 0
  | cons d w ih =>
    have hd := length_pos_within double d
    rw [List.flatMap_cons, List.length_append, List.length_cons]
    omega

theorem atAnyDocumentMark_of_column (hc : 0 < c.column) : c.atAnyDocumentMark = false := by
  have hcolumn : c.column ≠ 0 := by omega
  simp [Cursor.atAnyDocumentMark, Cursor.atDocumentMark, hcolumn]

/-- **Text between quotes is read as what was written.** -/
theorem quotedWords?_eq {n : Nat} {cs written text : List Char} (h : Quoted double n cs written)
    (hc : c.rest = written ++ quote double :: rest)
    (hrest : double = false → rest.head? ≠ some '\'') (hcolumn : 0 < c.column)
    (hfuel : written.length < fuel) :
    quotedWords? double fuel text c = some (text ++ cs, c.past (written ++ [quote double])) := by
  have hend : EndsWord double (quote double :: rest) := .inr (.inr ⟨rfl, hrest⟩)
  have hmark : isBreak (quote double) = false := by cases double <;> rfl
  have hhead : c.head ≠ none := by simp [Cursor.head, hc]
  induction h generalizing c text fuel with
  | @word w inside =>
    obtain ⟨fuel, rfl⟩ : ∃ k, fuel = k + 1 := ⟨fuel - 1, by omega⟩
    have hlength : w.length < c.rest.length + 1 := by
      have h := length_le_words double w
      rw [hc, List.length_append]
      omega
    have hclosed : (c.past (w.flatMap (within double))).rest = quote double :: rest :=
      Cursor.rest_past_of hc
    have hquote : (c.past (w.flatMap (within double))).startsWith (if double then '"' else '\'') =
        true := by
      simp [Cursor.startsWith, hclosed, quote]
    rw [quotedWords?, atAnyDocumentMark_of_column hcolumn, quotedWord?_eq inside hc hend hlength,
      Cursor.past_append]
    simp [hhead, hquote, Cursor.past_cons, hmark]
  | @gap w s s' t t' inside between solid after ih =>
    obtain ⟨fuel, rfl⟩ : ∃ k, fuel = k + 1 := ⟨fuel - 1, by omega⟩
    obtain ⟨d, ds, hs', hd⟩ := between.head?_eq
    rw [List.append_assoc, List.append_assoc] at hc
    have hlength : w.length < c.rest.length + 1 := by
      have h := length_le_words double w
      rw [hc, List.length_append]
      omega
    have hword : EndsWord double (s' ++ (t' ++ quote double :: rest)) := by
      rw [hs']
      exact hd.elim .inl fun h => .inr (.inl h)
    have hgap : (c.past (w.flatMap (within double))).rest = s' ++ (t' ++ quote double :: rest) :=
      Cursor.rest_past_of hc
    have hnext : ((c.past (w.flatMap (within double))).past s').rest = t' ++ quote double :: rest :=
      Cursor.rest_past_of hgap
    have hopen : (c.past (w.flatMap (within double))).startsWith (if double then '"' else '\'') =
        false := by
      rw [Cursor.startsWith, hgap, hs', List.cons_append, List.head?_cons]
      apply decide_eq_false
      intro h
      cases Option.some.inj h
      cases double <;> simp [isSpace, isBreak] at hd
    have hsolid : Solid (t' ++ quote double :: rest) := by
      cases t' with
      | nil =>
        intro d hd
        cases Option.mem_some.1 hd
        cases double <;> exact ⟨rfl, rfl⟩
      | cons d t' => exact solid
    have hfuel' : t'.length < fuel := by
      simp only [List.length_append, hs', List.length_cons] at hfuel
      omega
    have hcolumn' := between.column_past (c := c.past (w.flatMap (within double)))
    rw [quotedWords?, atAnyDocumentMark_of_column hcolumn, quotedWord?_eq inside hc hword hlength]
    simp only [hhead, hopen, Option.bind_eq_bind, Option.bind_some, Bool.false_or, decide_false,
      Bool.false_eq_true, if_false]
    rw [gap?_eq between.blank hsolid hgap (by rw [hgap, List.length_append]; omega)]
    simp only [Option.bind_some, between.text_over]
    rw [ih hnext hcolumn' hfuel' (by simp [Cursor.head, hnext])]
    simp only [List.append_assoc, Cursor.past_append]

/-- The same from the opening quote on. -/
theorem quoted?_eq {n : Nat} {cs written : List Char} (h : Quoted double n cs written)
    (hc : c.rest = quote double :: (written ++ quote double :: rest))
    (hrest : double = false → rest.head? ≠ some '\'') :
    quoted? double (c.skip 1) = some (cs, c.past (quote double :: written ++ [quote double])) := by
  have hmark : isBreak (quote double) = false := by cases double <;> rfl
  have hnext : (c.skip 1).rest = written ++ quote double :: rest := by simp [Cursor.skip, hc]
  have hlength : written.length < (c.skip 1).rest.length + 1 := by
    rw [hnext, List.length_append]
    omega
  rw [quoted?, quotedWords?_eq h hnext hrest (Nat.succ_pos _) hlength, List.nil_append,
    List.cons_append, Cursor.past_cons, hmark]
  rfl

end Scalar

end TestOrchestrator.Yaml
