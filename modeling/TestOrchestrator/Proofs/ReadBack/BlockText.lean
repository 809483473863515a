import TestOrchestrator.Proofs.ReadBack.Quotes
/-!
# Blocks of text

* `Scalar.Lined n x written` says that `x` are lines of a block and `written` is how they are
  written, indented by `n`. `Scalar.block?_lines` reads a block of such lines,
  `Scalar.block?_breaks` one of empty lines only.
* `Quoting.block?_literal`: the printed block of a text is read as the text.
-/

namespace TestOrchestrator.Yaml

namespace Scalar

open Quoting

variable {c : Cursor} {s bs rest breaks : List Char} {fuel deepest k m n : Nat}

/-- Line breaks that are kept as they are. -/
def KeptBreaks (bs : List Char) : Prop :=
  ∀ b ∈ bs, b = '\n' ∨ b.toNat = 0x2028 ∨ b.toNat = 0x2029

theorem KeptBreaks.isBreak (h : KeptBreaks bs) {b : Char} (hb : b ∈ bs) :
    Yaml.isBreak b = true ∧ b ≠ '\r' := by
  rcases h b hb with rfl | hb
  · exact ⟨rfl, by decide⟩
  · have h := isBreak_of_separator hb
    exact ⟨h.1, h.2.1⟩

theorem KeptBreaks.breakText {b : Char} {ds : List Char} (h : KeptBreaks bs) (hb : b ∈ bs)
    (hc : c.rest = b :: ds) : c.breakText = [b] := by
  rw [Cursor.breakText_eq hc]
  rcases h b hb with rfl | hb
  · rfl
  · simp [hb]

theorem KeptBreaks.column_past {b : Char} (h : KeptBreaks (b :: bs)) (line : List Char) :
    (c.past (line ++ (b :: bs ++ pad k))).column = k := by
  obtain ⟨ds, d, hds⟩ := (List.eq_nil_or_concat (b :: bs)).resolve_left (List.cons_ne_nil b bs)
  rw [List.concat_eq_append] at hds
  have hd : d ∈ b :: bs := by simp [hds]
  rw [hds, List.append_assoc, ← List.append_assoc, List.singleton_append]
  exact Cursor.column_past (h.isBreak hd).1

/-- A line of a block that is not empty and is indented by `k`: either as deep as the block, or it
does not belong to it. -/
structure LineAt (n k : Nat) (s : List Char) : Prop where
  depth : k = n ∨ (k < n ∧ s.head? ≠ some ' ')
  text : ∀ d ∈ s.head?, isBreak d = false ∧ d ≠ '\t'

theorem takeWhile_pad (h : s.head? ≠ some ' ') : (pad k ++ s).takeWhile (· = ' ') = pad k := by
  rw [List.takeWhile_append_of_pos (by simp [pad])]
  cases s with
  | nil => simp
  | cons d s =>
    have hd : d ≠ ' ' := by simpa using h
    simp [hd]

/-- The indentation of a line that is skipped. -/
theorem LineAt.min_spaces (h : LineAt n k s) (hc : c.rest = pad k ++ s) :
    min (c.takeWhile (· = ' ')).length n = k := by
  rw [Cursor.takeWhile, hc]
  rcases h.depth with rfl | ⟨hk, hs⟩
  · rw [List.takeWhile_append_of_pos (by simp [pad]), List.length_append]
    simp only [pad, List.length_replicate]
    omega
  · rw [takeWhile_pad hs]
    simp only [pad, List.length_replicate]
    omega

theorem emptyLines?_pad (hline : LineAt n k s) (hc : c.rest = pad k ++ s) (hcolumn : c.column = 0) :
    emptyLines? (some n) (fuel + 1) breaks deepest c =
      some (breaks, max deepest k, c.past (pad k)) := by
  have hspaces := hline.min_spaces hc
  have hnext : (c.skip k).rest = s := by simp [Cursor.skip, hc, pad]
  have hcolumn' : (c.skip k).column = k := by simp [Cursor.skip, hcolumn]
  have htab : (c.skip k).startsWith '\t' = false := by
    apply decide_eq_false
    rw [hnext]
    exact fun h => (hline.text '\t' h).2 rfl
  rw [emptyLines?, Cursor.past_pad]
  simp only [hcolumn, Nat.sub_zero, hspaces, hcolumn', htab, Bool.and_false, Bool.false_eq_true,
    if_false, Cursor.head, hnext]
  cases hs : s.head? with
  | none => rfl
  | some d => simp [(hline.text d hs).1]

theorem emptyLines?_break {b : Char} {ds : List Char} (hbs : KeptBreaks bs) (hb : b ∈ bs)
    (hc : c.rest = b :: ds) :
    emptyLines? (some n) (fuel + 1) breaks deepest c =
      emptyLines? (some n) fuel (breaks ++ [b]) (max deepest c.column) c.newLine := by
  obtain ⟨hbreak, hreturn⟩ := hbs.isBreak hb
  have hspace : b ≠ ' ' := by
    rintro rfl
    cases hbreak
  have htab : b ≠ '\t' := by
    rintro rfl
    cases hbreak
  have hspaces : c.takeWhile (· = ' ') = [] := by simp [Cursor.takeWhile, hc, hspace]
  have hskip : c.skip (min 0 (n - c.column)) = c := by simp
  rw [emptyLines?, hspaces, List.length_nil, hskip]
  simp [Cursor.startsWith, Cursor.head, hc, htab, hbreak, hbs.breakText hb hc,
    Cursor.skipBreak_eq hc hreturn]

/-- Empty lines, and the indentation of the next one. -/
theorem emptyLines?_eq (hbs : KeptBreaks bs) (hline : LineAt n k s)
    (hc : c.rest = bs ++ (pad k ++ s))
    (hcolumn : c.column = 0) (hfuel : bs.length < fuel) :
    ∃ deepest', emptyLines? (some n) fuel breaks deepest c =
      some (breaks ++ bs, deepest', c.past (bs ++ pad k)) := by
  induction bs generalizing c breaks deepest fuel with
  | nil =>
    obtain ⟨fuel, rfl⟩ : ∃ k, fuel = k + 1 := ⟨fuel - 1, by omega⟩
    exact ⟨_, by rw [emptyLines?_pad hline hc hcolumn, List.append_nil, List.nil_append]⟩
  | cons b bs ih =>
    rw [List.length_cons] at hfuel
    obtain ⟨fuel, rfl⟩ : ∃ k, fuel = k + 1 := ⟨fuel - 1, by omega⟩
    have hfuel' : bs.length < fuel := by omega
    have hnext : c.newLine.rest = bs ++ (pad k ++ s) := by simp [Cursor.newLine, hc]
    have hrest : KeptBreaks bs := fun d hd => hbs d (List.mem_cons_of_mem b hd)
    have hpast : c.past (b :: bs ++ pad k) = c.newLine.past (bs ++ pad k) := by
      rw [List.cons_append, Cursor.past_cons, (hbs.isBreak List.mem_cons_self).1]
      rfl
    have hlines : ∃ deepest', emptyLines? (some n) fuel (breaks ++ [b]) (max deepest c.column)
        c.newLine =
        some (breaks ++ [b] ++ bs, deepest', c.newLine.past (bs ++ pad k)) :=
      ih hrest hnext rfl hfuel'
    obtain ⟨deepest', h⟩ := hlines
    refine ⟨deepest', ?_⟩
    rw [emptyLines?_break hbs List.mem_cons_self hc, h, hpast, List.append_assoc,
      List.singleton_append]

/-! ## Lines -/

/-- Lines that are not empty, from the first character of the first one to the last one of the last
one, and how they are written when every further line is indented by `n`. -/
inductive Lined (n : Nat) : List Char → List Char → Prop
  | last {line : List Char} (ne_nil : line ≠ [])
      (inside : ∀ d ∈ line, isBreak d = false ∧ d ≠ '\t') :
      Lined n line line
  | more {line bs x written : List Char} {b : Char} (ne_nil : line ≠ [])
      (inside : ∀ d ∈ line, isBreak d = false ∧ d ≠ '\t') (kept : KeptBreaks (b :: bs))
      (after : Lined n x written) :
      Lined n (line ++ (b :: bs ++ x)) (line ++ (b :: bs ++ (pad n ++ written)))

theorem Lined.exists_head {x written : List Char} (h : Lined n x written) :
    ∃ d ds, written = d :: ds ∧ isBreak d = false ∧ d ≠ '\t' := by
  cases h with
  | last ne_nil inside =>
    obtain ⟨d, line, rfl⟩ := List.exists_cons_of_ne_nil ne_nil
    exact ⟨d, line, rfl, inside d List.mem_cons_self⟩
  | more ne_nil inside kept after =>
    obtain ⟨d, line, rfl⟩ := List.exists_cons_of_ne_nil ne_nil
    exact ⟨d, _, rfl, inside d List.mem_cons_self⟩

theorem Lined.exists_last {x written : List Char} (h : Lined n x written) :
    ∃ y e, x = y ++ [e] ∧ isBreak e = false := by
  induction h with
  | @last line ne_nil inside =>
    obtain ⟨y, e, rfl⟩ := (List.eq_nil_or_concat line).resolve_left ne_nil
    exact ⟨y, e, List.concat_eq_append .., (inside e (by simp)).1⟩
  | more ne_nil inside kept after ih =>
    obtain ⟨y, e, rfl, he⟩ := ih
    exact ⟨_, e, by rw [← List.append_assoc, ← List.append_assoc], he⟩

theorem Lined.lineAt {x written : List Char} (h : Lined n x written) (rest : List Char) :
    LineAt n n (written ++ rest) := by
  obtain ⟨d, ds, rfl, hd⟩ := h.exists_head
  refine ⟨.inl rfl, fun e he => ?_⟩
  cases Option.mem_some.1 he
  exact hd

theorem blockLines?_line (fuel : Nat) (l : Lines) (breaks : List Char) {line : List Char} {b : Char}
    (hinside : ∀ d ∈ line, isBreak d = false)
    (hbs : KeptBreaks (b :: bs)) (hnext : LineAt n k s) (hcolumn : c.column = n)
    (hc : c.rest = line ++ (b :: bs ++ (pad k ++ s))) :
    ∃ spaced, blockLines? true n (fuel + 1) l breaks c =
      blockLines? true n fuel ⟨l.text ++ l.ending ++ breaks ++ line, [b], spaced⟩ bs
        (c.past (line ++ (b :: bs ++ pad k))) := by
  obtain ⟨hbreak, hreturn⟩ := hbs.isBreak List.mem_cons_self
  have hhead : c.head ≠ none := by
    rw [Cursor.head, hc]
    cases line <;> simp
  have hline : c.takeWhile (!isBreak ·) = line := by
    rw [Cursor.takeWhile, hc, List.takeWhile_append_of_pos fun d hd => by simp [hinside d hd]]
    simp [hbreak]
  have hskip : c.skip line.length = c.past line := by
    refine (Cursor.past_eq_skip ?_).symm
    rw [List.any_eq_false]
    intro d hd
    simp [hinside d hd]
  have hrest : (c.past line).rest = b :: (bs ++ (pad k ++ s)) := Cursor.rest_past_of hc
  have hnew : (c.past line).newLine.rest = bs ++ (pad k ++ s) := by simp [Cursor.newLine, hrest]
  have hkept : KeptBreaks bs := fun d hd => hbs d (List.mem_cons_of_mem b hd)
  have hpast : c.past (line ++ (b :: bs ++ pad k)) = (c.past line).newLine.past (bs ++ pad k) := by
    rw [Cursor.past_append, List.cons_append, Cursor.past_cons, hbreak]
    rfl
  have hlength : bs.length < (c.past line).rest.length + 2 := by
    simp only [hrest, List.length_cons, List.length_append]
    omega
  have hempty : ∃ deepest, emptyLines? (some n) ((c.past line).rest.length + 2) [] 0
      (c.past line).newLine = some ([] ++ bs, deepest, (c.past line).newLine.past (bs ++ pad k)) :=
    emptyLines?_eq hkept hnext hnew rfl hlength
  obtain ⟨deepest, hempty⟩ := hempty
  refine ⟨c.head.any isSpace, ?_⟩
  rw [blockLines?, if_pos (by simp [hcolumn, hhead]), hpast]
  simp only [hline, hskip, hbs.breakText List.mem_cons_self hrest,
    Cursor.skipBreak_eq hrest hreturn, hempty]
  rfl

theorem blockLines?_end {l : Lines} (hcolumn : c.column ≠ n) :
    blockLines? true n (fuel + 1) l breaks c = some (l, breaks, c) := by
  rw [blockLines?, if_neg (by simp [hcolumn])]

/-- The lines of a block, with breaks behind them and a line that is not so deep. -/
theorem blockLines?_eq (l : Lines) (breaks : List Char) {x written : List Char} {b : Char}
    (h : Lined n x written)
    (hbs : KeptBreaks (b :: bs)) (hend : LineAt n m rest) (hm : m < n) (hcolumn : c.column = n)
    (hc : c.rest = written ++ (b :: bs ++ (pad m ++ rest))) (hfuel : written.length + 1 < fuel) :
    ∃ spaced, blockLines? true n fuel l breaks c =
      some (⟨l.text ++ l.ending ++ breaks ++ x, [b], spaced⟩, bs,
        c.past (written ++ (b :: bs ++ pad m))) := by
  induction h generalizing c l breaks fuel with
  | @last line ne_nil inside =>
    obtain ⟨fuel, rfl⟩ : ∃ k, fuel = k + 2 := ⟨fuel - 2, by omega⟩
    obtain ⟨spaced, hline⟩ := blockLines?_line (fuel + 1) l breaks (fun d hd => (inside d hd).1)
      hbs hend
      hcolumn hc
    refine ⟨spaced, ?_⟩
    rw [hline, blockLines?_end]
    rw [hbs.column_past]
    omega
  | @more line ds x written d ne_nil inside kept after ih =>
    obtain ⟨fuel, rfl⟩ : ∃ k, fuel = k + 1 := ⟨fuel - 1, by omega⟩
    have hc' : c.rest = line ++ (d :: ds ++
        (pad n ++ (written ++ (b :: bs ++ (pad m ++ rest))))) := by
      simpa only [List.append_assoc, List.cons_append] using hc
    obtain ⟨spaced, hline⟩ := blockLines?_line fuel l breaks (fun d hd => (inside d hd).1) kept
      (after.lineAt _) hcolumn hc'
    have hnext : (c.past (line ++ (d :: ds ++ pad n))).rest =
        written ++ (b :: bs ++ (pad m ++ rest)) := by
      apply Cursor.rest_past_of
      simpa only [List.append_assoc, List.cons_append] using hc'
    have hshort : written.length + 1 < fuel := by
      simp only [List.length_append, List.length_cons] at hfuel
      omega
    obtain ⟨spaced', hrest⟩ := ih ⟨l.text ++ l.ending ++ breaks ++ line, [d], spaced⟩ ds
      (kept.column_past line) hnext hshort
    refine ⟨spaced', ?_⟩
    rw [hline, hrest, ← Cursor.past_append]
    simp only [List.append_assoc, List.cons_append, List.nil_append]

/-! ## The first line -/

/-- The marks of a block: whether its indentation is given, and what becomes of the breaks at its
end. -/
def marks (given : Bool) (chomping : Chomping) : List Char :=
  (if given then ['2'] else []) ++
    match chomping with
    | .strip => ['-']
    | .clip => []
    | .keep => ['+']

theorem header?_eq {given : Bool} {chomping : Chomping}
    (hc : c.rest = marks given chomping ++ '\n' :: rest) :
    header? c = some (⟨chomping, if given then some 2 else none⟩,
      c.past (marks given chomping)) := by
  cases given <;> cases chomping <;>
    simp [marks] at hc ⊢ <;>
    simp [header?, headerChomping, headerIndent?, Cursor.startsWith, Cursor.head, hc, Cursor.skip,
      Cursor.past_cons, isBreak]

theorem restOfLine?_eq (hc : c.rest = '\n' :: rest) : restOfLine? c = some c.newLine := by
  have hspaces : c.skipWhile isSpace = c := by
    rw [Cursor.skipWhile, Cursor.takeWhile, hc]
    simp [isSpace]
  rw [restOfLine?, hspaces]
  simp [Cursor.startsWith, Cursor.head, hc, isBreak, Cursor.skipBreak_eq hc (by decide)]

/-- The lines before the first one that is not empty, where the indentation is given. -/
theorem emptyLines?_given {outer : Int} (hn : n = outer.toNat + 2) (hbs : KeptBreaks bs)
    (hline : LineAt n k s) (hc : c.rest = bs ++ (pad k ++ s)) (hcolumn : c.column = 0)
    (hfuel : bs.length < fuel) :
    ∃ deepest, emptyLines? ((some 2).map fun n => (if 0 ≤ outer then outer.toNat else 0) + n) fuel
      [] 0 c =
      some (bs, deepest, c.past (bs ++ pad k)) := by
  have hgiven : ((some 2).map fun n => (if 0 ≤ outer then outer.toNat else 0) + n) = some n := by
    rw [Option.map_some, hn]
    split
    · rfl
    · rw [Int.toNat_of_nonpos (by omega)]
  rw [hgiven]
  exact emptyLines?_eq hbs hline hc hcolumn hfuel

/-- The first line, where it shows the indentation. -/
theorem emptyLines?_shown {d : Char} {ds : List Char} (hd : d ≠ ' ' ∧ d ≠ '\t' ∧ isBreak d = false)
    (hc : c.rest = pad n ++ d :: ds) (hcolumn : c.column = 0) :
    emptyLines? none (fuel + 1) [] 0 c = some ([], n, c.past (pad n)) := by
  obtain ⟨hspace, htab, hbreak⟩ := hd
  have hspaces : (c.takeWhile (· = ' ')).length = n := by
    rw [Cursor.takeWhile, hc, takeWhile_pad (by simpa using hspace), pad, List.length_replicate]
  have hnext : (c.skip n).rest = d :: ds := by simp [Cursor.skip, hc, pad]
  have hcolumn' : (c.skip n).column = n := by simp [Cursor.skip, hcolumn]
  rw [emptyLines?, hspaces, Cursor.past_pad]
  simp [Cursor.startsWith, Cursor.head, hnext, hcolumn', htab, hbreak]

/-- A block of lines that are not all empty, with the breaks `lead` before them and `b :: bs`
behind. -/
theorem block?_lines {outer : Int} {given : Bool} {chomping : Chomping} {lead x written : List Char}
    {b : Char}
    (hn : n = outer.toNat + 2) (hlead : KeptBreaks lead)
    (hgiven : given = false → lead = [] ∧ written.head? ≠ some ' ') (h : Lined n x written)
    (hbs : KeptBreaks (b :: bs)) (hend : LineAt n m rest) (hm : m < n)
    (hc : c.rest = marks given chomping ++
      '\n' :: (lead ++ (pad n ++ (written ++ (b :: bs ++ (pad m ++ rest)))))) :
    block? true outer c =
      some (lead ++ x ++ (if chomping = .strip then [] else [b]) ++
        (if chomping = .keep then bs else []),
        c.past (marks given chomping ++
          '\n' :: (lead ++ (pad n ++ (written ++ (b :: bs ++ pad m)))))) := by
  have hmarks : (c.past (marks given chomping)).rest =
      '\n' :: (lead ++ (pad n ++ (written ++ (b :: bs ++ (pad m ++ rest))))) :=
    Cursor.rest_past_of hc
  have hfirst : (c.past (marks given chomping)).newLine.rest =
      lead ++ (pad n ++ (written ++ (b :: bs ++ (pad m ++ rest)))) := by
    simp [Cursor.newLine, hmarks]
  generalize hc₁ : (c.past (marks given chomping)).newLine = c₁ at hfirst
  have hcolumn₁ : c₁.column = 0 := by
    rw [← hc₁]
    rfl
  have hopen : ∃ deepest, emptyLines?
      ((if given then some 2 else none).map fun n => (if 0 ≤ outer then outer.toNat else 0) + n)
      (c₁.rest.length + 2) [] 0 c₁ = some (lead, deepest, c₁.past (lead ++ pad n)) ∧
      ((if given then some 2 else none).map fun n =>
        (if 0 ≤ outer then outer.toNat else 0) + n).getD
        (max (max deepest (outer + 1).toNat) 1) = n := by
    cases given with
    | true =>
      have hlength : lead.length < c₁.rest.length + 2 := by
        rw [hfirst, List.length_append]
        omega
      obtain ⟨deepest, hempty⟩ := emptyLines?_given hn hlead (h.lineAt _) hfirst hcolumn₁ hlength
      refine ⟨deepest, hempty, ?_⟩
      simp only [if_true, Option.map_some, Option.getD_some]
      split <;> omega
    | false =>
      obtain ⟨rfl, hspace⟩ := hgiven rfl
      obtain ⟨d, ds, rfl, hbreak, htab⟩ := h.exists_head
      have hd : d ≠ ' ' := by simpa using hspace
      refine ⟨n, emptyLines?_shown ⟨hd, htab, hbreak⟩ hfirst hcolumn₁, ?_⟩
      simp only [Bool.false_eq_true, if_false, Option.map_none, Option.getD_none]
      omega
  obtain ⟨deepest, hempty, hindent⟩ := hopen
  have hline : (c₁.past (lead ++ pad n)).rest = written ++ (b :: bs ++ (pad m ++ rest)) := by
    apply Cursor.rest_past_of
    rw [hfirst, List.append_assoc]
  have hcolumn : (c₁.past (lead ++ pad n)).column = n := by
    cases lead with
    | nil =>
      rw [List.nil_append, Cursor.past_pad]
      simp [Cursor.skip, hcolumn₁]
    | cons d lead => exact hlead.column_past []
  have hlength : written.length + 1 < (c₁.past (lead ++ pad n)).rest.length + 2 := by
    rw [hline, List.length_append]
    omega
  obtain ⟨spaced, hlines⟩ := blockLines?_eq {} lead h hbs hend hm hcolumn hline hlength
  have hpast : c.past (marks given chomping ++
      '\n' :: (lead ++ (pad n ++ (written ++ (b :: bs ++ pad m))))) =
      (c₁.past (lead ++ pad n)).past (written ++ (b :: bs ++ pad m)) := by
    rw [← hc₁]
    simp only [Cursor.past_append, Cursor.past_cons]
    rfl
  rw [block?, header?_eq hc]
  simp only [Option.bind_eq_bind, Option.bind_some, restOfLine?_eq hmarks, hc₁, hempty, hindent,
    hlines, hpast]
  simp

/-- A block of empty lines. -/
theorem block?_breaks {outer : Int} (hn : n = outer.toNat + 2) (hbs : KeptBreaks bs) (hne : bs ≠ [])
    (hend : LineAt n m rest) (hm : m < n)
    (hc : c.rest = marks true .keep ++ '\n' :: (bs ++ (pad m ++ rest))) :
    block? true outer c = some (bs, c.past (marks true .keep ++ '\n' :: (bs ++ pad m))) := by
  have hmarks : (c.past (marks true .keep)).rest = '\n' :: (bs ++ (pad m ++ rest)) :=
    Cursor.rest_past_of hc
  have hfirst : (c.past (marks true .keep)).newLine.rest = bs ++ (pad m ++ rest) := by
    simp [Cursor.newLine, hmarks]
  have hcolumn : ((c.past (marks true .keep)).newLine.past (bs ++ pad m)).column ≠ n := by
    obtain ⟨b, bs, rfl⟩ := List.exists_cons_of_ne_nil hne
    have hcolumn : ((c.past (marks true .keep)).newLine.past (b :: bs ++ pad m)).column = m :=
      hbs.column_past []
    omega
  have hlength : bs.length < (c.past (marks true .keep)).newLine.rest.length + 2 := by
    rw [hfirst, List.length_append]
    omega
  obtain ⟨deepest, hempty⟩ := emptyLines?_given hn hbs hend hfirst rfl hlength
  have hindent : ((some 2).map fun n => (if 0 ≤ outer then outer.toNat else 0) + n).getD
      (max (max deepest (outer + 1).toNat) 1) = n := by
    simp only [Option.map_some, Option.getD_some]
    split <;> omega
  have hpast : c.past (marks true .keep ++ '\n' :: (bs ++ pad m)) =
      (c.past (marks true .keep)).newLine.past (bs ++ pad m) := by
    rw [Cursor.past_append, Cursor.past_cons]
    rfl
  rw [block?, header?_eq hc]
  simp only [Option.bind_eq_bind, Option.bind_some, restOfLine?_eq hmarks, if_true, hempty, hindent,
    hpast, blockLines?_end hcolumn]
  simp

end Scalar

/-! ## What is written as a block -/

namespace Quoting

open Scalar

variable {cs : List Char} {n : Nat}

theorem getLast?_indented (n : Nat) (start : Bool) (cs : List Char) :
    (indented n start cs).getLast? = cs.getLast? := by
  induction cs generalizing start with
  | nil => rfl
  | cons d cs ih =>
    have hlast : ∀ b, (d :: indented n b cs).getLast? = (d :: cs).getLast? := by
      intro b
      rw [List.getLast?_cons, List.getLast?_cons, ih]
    rw [indented]
    split
    · exact hlast true
    · rw [List.getLast?_append_of_ne_nil _ (List.cons_ne_nil _ _)]
      exact hlast false

/-- What is written behind a block. -/
def closing (cs : List Char) : List Char := if cs.getLast?.any isBreak then [] else ['\n']

theorem keptBreaks_of_isPrintable (hprintable : ∀ d ∈ cs, isPrintable d = true)
    (hbreak : ∀ d ∈ cs, isBreak d = true) : KeptBreaks cs := by
  intro d hd
  by_cases hfeed : d = '\n'
  · exact .inl hfeed
  · exact .inr ((isBreak_iff_of_isPrintable (hprintable d hd) hfeed).1 (hbreak d hd))

theorem indented_start {d : Char} (hd : isBreak d = false) (cs : List Char) :
    indented n true (d :: cs) = pad n ++ indented n false (d :: cs) := by
  simp [indented, hd]

/-- A text that begins with a line that is not empty, with the breaks at its end apart. -/
theorem exists_lined {d : Char} (hprintable : ∀ e ∈ d :: cs, isPrintable e = true)
    (hd : isBreak d = false) :
    ∃ x tail written, d :: cs = x ++ tail ∧ Lined n x written ∧ KeptBreaks tail ∧
      indented n false (d :: cs) = written ++ tail := by
  induction hk : cs.length using Nat.strongRecOn generalizing d cs with
  | ind k ih =>
    obtain ⟨line, t, hcs, hline, ht⟩ := exists_span (!isBreak ·) (d :: cs)
    have hne : line ≠ [] := by
      rintro rfl
      have hbreak := ht d (by rw [← hcs.trans (List.nil_append t)]; rfl)
      rw [hd] at hbreak
      cases hbreak
    rw [hcs] at hprintable ⊢
    have hinside : ∀ e ∈ line, isBreak e = false ∧ e ≠ '\t' := by
      intro e he
      have hbreak := hline e he
      refine ⟨by simpa using hbreak, ?_⟩
      rintro rfl
      simpa [isPrintable] using hprintable _ (List.mem_append_left t he)
    have hany : line.any isBreak = false := by
      rw [List.any_eq_false]
      intro e he
      simp [(hinside e he).1]
    rw [indented_line hany]
    cases t with
    | nil => exact ⟨line, [], line, rfl, .last hne hinside, List.forall_mem_nil _, rfl⟩
    | cons b t =>
      obtain ⟨bs, u, rfl, hbs, hu⟩ := exists_span isBreak t
      have hb : isBreak b = true := by simpa using ht b rfl
      have hbreaks : ∀ e ∈ b :: bs, isBreak e = true := List.forall_mem_cons.2 ⟨hb, hbs⟩
      rw [← List.cons_append] at hprintable hcs ⊢
      have hkept : KeptBreaks (b :: bs) := keptBreaks_of_isPrintable
        (fun e he => hprintable e (List.mem_append_right _ (List.mem_append_left _ he))) hbreaks
      rw [indented_breaks hbreaks]
      cases u with
      | nil =>
        refine ⟨line, b :: bs, line, by rw [List.append_nil], .last hne hinside, hkept, ?_⟩
        rw [indented, List.append_nil]
      | cons e u =>
        have he : isBreak e = false := hu e rfl
        have hshort : u.length < k := by
          have hlength := congrArg List.length hcs
          simp only [List.length_append, List.length_cons] at hlength
          omega
        obtain ⟨x, tail, written, hx, hlined, htail, hwritten⟩ := ih u.length hshort
          (fun f hf => hprintable f (List.mem_append_right _ (List.mem_append_right _ hf))) he rfl
        refine ⟨_, tail, _, ?_, .more hne hinside hkept hlined, htail, ?_⟩
        · rw [hx]
          simp only [List.append_assoc, List.cons_append]
        · rw [indented_start he, hwritten]
          simp only [List.append_assoc, List.cons_append]

/-- What is said about the breaks at the end of a text. -/
def chomping : List Char → Chomping
  | [] => .strip
  | [_] => .clip
  | _ => .keep

/-- Whether the indentation of a text must be given. -/
def givesIndent (cs : List Char) : Bool := cs.head?.any fun c => c = ' ' || isBreak c

theorem blockMarks_of_breaks (hne : cs ≠ []) (hbreak : ∀ d ∈ cs, isBreak d = true) :
    blockMarks cs = marks true .keep := by
  have hhead : (cs.head?.any fun c => c = ' ' || isBreak c) = true := by
    obtain ⟨d, cs, rfl⟩ := List.exists_cons_of_ne_nil hne
    simp [hbreak d List.mem_cons_self]
  have hmem : ∀ d ∈ cs.reverse, isBreak d = true := fun d hd => hbreak d (List.mem_reverse.1 hd)
  have hreverse : cs.reverse ≠ [] := by simpa using hne
  unfold blockMarks
  rw [if_pos hhead]
  match cs.reverse, hreverse, hmem with
  | [c], _, hmem => simp [hmem c, marks]
  | c :: d :: ds, _, hmem => simp [hmem c, hmem d, marks]

theorem blockMarks_of_line {x tail : List Char} {e : Char} (he : isBreak e = false)
    (htail : ∀ d ∈ tail, isBreak d = true) :
    blockMarks (x ++ [e] ++ tail) =
      marks (givesIndent (x ++ [e] ++ tail)) (chomping tail) := by
  unfold blockMarks marks
  rw [List.reverse_append, List.reverse_append, List.reverse_singleton, List.singleton_append]
  congr 1
  have hmem : ∀ d ∈ tail.reverse, isBreak d = true := fun d hd => htail d (List.mem_reverse.1 hd)
  cases tail with
  | nil => cases x.reverse <;> simp [he, chomping]
  | cons b tail =>
    have hb := htail b List.mem_cons_self
    cases tail with
    | nil => simp [he, hb, chomping]
    | cons d tail =>
      have hlength : (b :: d :: tail).reverse.length = tail.length + 2 := by simp
      generalize (b :: d :: tail).reverse = bs at hmem hlength ⊢
      obtain _ | ⟨c, _ | ⟨f, fs⟩⟩ := bs
      · simp at hlength
      · simp at hlength
      · simp [hmem c, hmem f, chomping]

/-- **A block of text is read as what was written.** -/
theorem block?_literal {c : Cursor} {rest : List Char} {m : Nat} {outer : Int}
    (hn : n = outer.toNat + 2)
    (hne : cs ≠ []) (hprintable : ∀ d ∈ cs, isPrintable d = true) (hend : LineAt n m rest)
    (hm : m < n)
    (hc : c.rest = blockMarks cs ++
      '\n' :: (indented n true cs ++ (closing cs ++ (pad m ++ rest)))) :
    block? true outer c =
      some (cs,
        c.past (blockMarks cs ++ '\n' :: (indented n true cs ++ (closing cs ++ pad m)))) := by
  obtain ⟨lead, u, rfl, hlead, hu⟩ := exists_span isBreak cs
  have hkept : KeptBreaks lead :=
    keptBreaks_of_isPrintable (fun d hd => hprintable d (List.mem_append_left u hd)) hlead
  cases u with
  | nil =>
    rw [List.append_nil] at *
    have hindented : indented n true lead = lead := by
      obtain ⟨b, bs, rfl⟩ := List.exists_cons_of_ne_nil hne
      have h : indented n true (b :: bs ++ []) = b :: bs ++ indented n true [] :=
        indented_breaks hlead []
      simpa [indented] using h
    have hclosing : closing lead = [] := by
      rw [closing, List.getLast?_eq_getLast_of_ne_nil hne, Option.any_some,
        hlead _ (List.getLast_mem hne)]
      rfl
    rw [blockMarks_of_breaks hne hlead, hindented, hclosing, List.nil_append] at hc ⊢
    exact block?_breaks hn hkept hne hend hm hc
  | cons d u =>
    have hd : isBreak d = false := hu d rfl
    obtain ⟨x, tail, written, hx, hlined, htail, hwritten⟩ := exists_lined (n := n)
      (fun e he => hprintable e (List.mem_append_right lead he)) hd
    obtain ⟨y, e, rfl, he⟩ := hlined.exists_last
    have hindented : indented n true (lead ++ d :: u) = lead ++ (pad n ++ (written ++ tail)) := by
      rw [← hwritten, ← indented_start hd]
      cases lead with
      | nil => rfl
      | cons b lead => exact indented_breaks hlead _
    have hmarks : blockMarks (lead ++ d :: u) =
        marks (givesIndent (lead ++ d :: u)) (chomping tail) := by
      have hcs : lead ++ d :: u = lead ++ y ++ [e] ++ tail := by
        rw [hx]
        simp only [List.append_assoc]
      rw [hcs]
      exact blockMarks_of_line he fun b hb => (htail.isBreak hb).1
    have hgiven : givesIndent (lead ++ d :: u) = false → lead = [] ∧ written.head? ≠ some ' ' := by
      intro hgives
      cases lead with
      | cons b lead => simp [givesIndent, hlead b List.mem_cons_self] at hgives
      | nil =>
        have hspace : d ≠ ' ' := by
          rintro rfl
          simp [givesIndent] at hgives
        obtain ⟨f, written, rfl, -⟩ := hlined.exists_head
        have hfd : d = f := by
          rw [indented, hd] at hwritten
          exact (List.cons.inj hwritten).1
        exact ⟨rfl, by simpa [← hfd] using hspace⟩
    have hlast : (lead ++ d :: u).getLast? = (e :: tail).getLast? := by
      rw [hx, List.append_assoc, ← List.append_assoc]
      exact List.getLast?_append_of_ne_nil _ (List.cons_ne_nil e tail)
    rw [hindented, hmarks] at hc ⊢
    rw [closing, hlast] at hc ⊢
    cases tail with
    | nil =>
      have hfeed : KeptBreaks ['\n'] := fun b hb => .inl (List.mem_singleton.1 hb)
      simp only [List.getLast?_singleton, Option.any_some, he, Bool.false_eq_true, if_false,
        List.append_nil, List.append_assoc] at hc ⊢
      rw [block?_lines hn hkept hgiven hlined hfeed hend hm hc, hx]
      simp [chomping]
    | cons b bs =>
      have hbreak : ((e :: b :: bs).getLast?.any isBreak) = true := by
        rw [List.getLast?_cons_cons, List.getLast?_eq_getLast_of_ne_nil (List.cons_ne_nil b bs),
          Option.any_some]
        exact (htail.isBreak (List.getLast_mem _)).1
      simp only [hbreak, if_true, List.nil_append, List.append_assoc] at hc ⊢
      rw [block?_lines hn hkept hgiven hlined htail hend hm hc, hx]
      cases bs <;> simp [chomping]

end Quoting

end TestOrchestrator.Yaml
