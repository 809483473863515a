import TestOrchestrator.Proofs.ReadBack.Places
import TestOrchestrator.Yaml.Token.Lexer
/-!
# Reading on

* `Lexer.Gives l ts` says that the lexer `l`, going on, gives the tokens `ts`. It is shown step by
  step from the first token to the last, from what a lexer gives behind a token to what it gives
  before.
* `gives_of_space`, `gives_of_line`: gaps. `gives_of_close`, `gives_of_end`: the ends of blocks and
  of the text. `gives_of_begin`: a token.
* `Stale`, `Spare` and `Fresh` say what becomes of a place where a key may have begun.
-/

namespace TestOrchestrator.Yaml

namespace Lexer

open Quoting

/-- A lexer outside of all brackets. -/
def on (c : Cursor) (i : Int) (is : List Int) (keyAllowed : Bool) (tokens : List Token)
    (candidate : Option Candidate) : Lexer :=
  { cursor := c, indent := i, outerIndents := is, keyAllowed, candidate, tokens,
    count := tokens.length }

/-- From here on the text has tokens, and all tokens of the text are `ts`. -/
def Gives (l : Lexer) (ts : List Token) : Prop :=
  ∀ fuel, l.cursor.rest.length < fuel → (run? fuel l).map (·.tokens.reverse) = some ts

/-- A lexer before the next token. -/
def next? (l : Lexer) : Option Lexer := (skipGaps (l.cursor.rest.length + 1) l).dropOutdated?

/-- A text that does not begin with a gap, a comment or the mark of an encoding. -/
def Marked (rest : List Char) : Prop :=
  ∀ d ∈ rest.head?, isSpace d = false ∧ isBreak d = false ∧ d ≠ '#' ∧ d ≠ byteOrderMark

variable {l l' : Lexer} {c : Cursor} {i j : Int} {is : List Int} {keyAllowed : Bool}
  {tokens ts : List Token} {candidate : Option Candidate} {d : Char} {ds rest : List Char} {m : Nat}

@[simp] theorem cursor_on : (on c i is keyAllowed tokens candidate).cursor = c := rfl

@[simp] theorem indent_on : (on c i is keyAllowed tokens candidate).indent = i := rfl

@[simp] theorem candidate_on : (on c i is keyAllowed tokens candidate).candidate = candidate := rfl

@[simp] theorem inFlow_on : (on c i is keyAllowed tokens candidate).inFlow = false := rfl

theorem run?_succ (fuel : Nat) (l : Lexer) : run? (fuel + 1) l = (l.next?).bind fun l =>
    let l := closeBlocks l.cursor.column l.outerIndents l
    match l.cursor.head with
    | some d => (l.begin? d).bind (run? fuel)
    | none => l.closeAll? := rfl

/-- What comes next decides. -/
theorem gives_of_next? (hnext : l.next? = l'.next?)
    (hrest : l'.cursor.rest.length ≤ l.cursor.rest.length)
    (h : Gives l' ts) : Gives l ts := by
  intro fuel hfuel
  obtain ⟨fuel, rfl⟩ : ∃ k, fuel = k + 1 := ⟨fuel - 1, by omega⟩
  rw [run?_succ, hnext, ← run?_succ]
  exact h (fuel + 1) (by omega)

theorem Marked.startsWith_eq_false (h : Marked rest)
    (hd : isSpace d = true ∨ d = '#' ∨ d = byteOrderMark)
    (hc : c.rest = rest) : c.startsWith d = false := by
  apply decide_eq_false
  rw [hc]
  intro hhead
  obtain ⟨hspace, -, hcomment, hmark⟩ := h d hhead
  rcases hd with hd | rfl | rfl
  · rw [hd] at hspace
    cases hspace
  · exact hcomment rfl
  · exact hmark rfl

/-- Spaces before the next token. -/
theorem skipGaps_pad (hc : l.cursor.rest = pad m ++ rest) (hrest : Marked rest) (fuel : Nat) :
    skipGaps (fuel + 1) l = { l with cursor := l.cursor.skip m } := by
  have hmark : l.cursor.startsWith byteOrderMark = false := by
    cases m with
    | zero => exact hrest.startsWith_eq_false (.inr (.inr rfl)) hc
    | succ m =>
      rw [Cursor.startsWith, hc]
      rfl
  have hskip : l.cursor.skipWhile (fun d => d = ' ' || (d = '\t' && (l.inFlow || !l.keyAllowed))) =
      l.cursor.skip m := by
    rw [Cursor.skipWhile, Cursor.takeWhile, hc, List.takeWhile_append_of_pos (by simp [pad])]
    cases rest with
    | nil => simp [pad]
    | cons d ds =>
      obtain ⟨hspace, -⟩ := hrest d rfl
      simp only [isSpace, Bool.or_eq_false_iff, decide_eq_false_iff_not] at hspace
      simp [hspace.1, hspace.2, pad]
  have hnext : (l.cursor.skip m).rest = rest := by simp [Cursor.skip, hc, pad]
  have hcomment : (l.cursor.skip m).startsWith '#' = false :=
    hrest.startsWith_eq_false (.inr (.inl rfl)) hnext
  have hhead : (l.cursor.skip m).head.any isBreak = false := by
    rw [Cursor.head, hnext]
    cases rest with
    | nil => rfl
    | cons d ds => exact (hrest d rfl).2.1
  rw [skipGaps]
  simp [hmark, hskip, hcomment, hhead]

/-- A new line before the next token. -/
theorem skipGaps_line (hc : l.cursor.rest = '\n' :: (pad m ++ rest)) (hrest : Marked rest)
    (fuel : Nat) :
    skipGaps (fuel + 2) l =
      { l with
        cursor := l.cursor.past ('\n' :: pad m)
        keyAllowed := l.keyAllowed || !l.inFlow } := by
  have hskip : l.cursor.skipWhile (fun d => d = ' ' || (d = '\t' && (l.inFlow || !l.keyAllowed))) =
      l.cursor := by
    rw [Cursor.skipWhile, Cursor.takeWhile, hc]
    simp
  have hnext : l.cursor.newLine.rest = pad m ++ rest := by simp [Cursor.newLine, hc]
  have hpast : l.cursor.past ('\n' :: pad m) = l.cursor.newLine.skip m := by
    rw [Cursor.past_cons, if_pos (show isBreak '\n' = true from rfl), Cursor.past_pad]
  have hmark : l.cursor.startsWith byteOrderMark = false := by
    rw [Cursor.startsWith, hc]
    rfl
  have hcomment : l.cursor.startsWith '#' = false := by
    rw [Cursor.startsWith, hc]
    rfl
  have hhead : l.cursor.head.any isBreak = true := by
    rw [Cursor.head, hc]
    rfl
  rw [skipGaps]
  simp only [hmark, Bool.and_false, Bool.false_eq_true, if_false, hskip, hcomment, hhead, if_true,
    Cursor.skipBreak_eq hc (by decide : '\n' ≠ '\r')]
  rw [skipGaps_pad hnext hrest, hpast]

/-! ## Candidates -/

/-- A place where a key may have begun, but need not, and too far back. -/
def Stale (c : Cursor) (candidate : Option Candidate) : Prop :=
  ∀ k ∈ candidate, k.required = false ∧ outdated c k = true

/-- A place where a key may have begun, but need not, and not on a later line. -/
def Spare (c : Cursor) (candidate : Option Candidate) : Prop :=
  ∀ k ∈ candidate, k.required = false ∧ k.cursor.line ≤ c.line

theorem spare_none : Spare c none := nofun

theorem Spare.stale {c' : Cursor} (h : Spare c candidate) (hline : c.line < c'.line) :
    Stale c' candidate := by
  intro k hk
  obtain ⟨hrequired, hbefore⟩ := h k hk
  have hbehind : k.cursor.line < c'.line := by omega
  exact ⟨hrequired, by simp [outdated, hbehind]⟩

theorem Spare.past (h : Spare c candidate) (cs : List Char) : Spare (c.past cs) candidate := by
  intro k hk
  obtain ⟨hrequired, hbefore⟩ := h k hk
  refine ⟨hrequired, ?_⟩
  rw [Cursor.line_past]
  omega

theorem dropOutdated?_of_stale (h : Stale c candidate) :
    (on c i is keyAllowed tokens candidate).dropOutdated? =
      some (on c i is keyAllowed tokens none) := by
  cases candidate with
  | none => rfl
  | some k =>
    obtain ⟨hrequired, houtdated⟩ := h k rfl
    simp [dropOutdated?, fresh?, on, hrequired, houtdated]

theorem dropOutdated?_of_fresh (h : ∀ k ∈ candidate, outdated c k = false) :
    (on c i is keyAllowed tokens candidate).dropOutdated? =
      some (on c i is keyAllowed tokens candidate) := by
  cases candidate with
  | none => rfl
  | some k => simp [dropOutdated?, fresh?, on, h k rfl]

/-! ## Gaps before a token -/

theorem next?_pad (hc : c.rest = pad m ++ rest) (hrest : Marked rest) :
    (on c i is keyAllowed tokens candidate).next? =
      (on (c.skip m) i is keyAllowed tokens candidate).dropOutdated? := by
  rw [next?, skipGaps_pad hc hrest]
  rfl

theorem next?_line (hc : c.rest = '\n' :: (pad m ++ rest)) (hrest : Marked rest) :
    (on c i is keyAllowed tokens candidate).next? =
      (on (c.past ('\n' :: pad m)) i is true tokens candidate).dropOutdated? := by
  have hlength : c.rest.length + 1 = (pad m ++ rest).length + 2 := by simp [hc]
  have hkey : (keyAllowed || !decide (0 < 0)) = true := by simp
  rw [next?]
  change (skipGaps (c.rest.length + 1) _).dropOutdated? = _
  rw [hlength, skipGaps_line hc hrest]
  simp [on, inFlow]

theorem next?_marked (hc : Marked c.rest) :
    (on c i is keyAllowed tokens candidate).next? =
      (on c i is keyAllowed tokens candidate).dropOutdated? := by
  rw [next?_pad (m := 0) rfl hc, Cursor.skip_zero]

/-- A candidate that is outdated is given up if it is not required. -/
theorem gives_of_stale (h : Stale c candidate) (hc : Marked c.rest)
    (hgives : Gives (on c i is keyAllowed tokens none) ts) :
    Gives (on c i is keyAllowed tokens candidate) ts := by
  have hnext : (on c i is keyAllowed tokens candidate).next? =
      (on c i is keyAllowed tokens none).next? := by
    rw [next?_marked hc, next?_marked hc, dropOutdated?_of_stale h]
    rfl
  exact gives_of_next? hnext (Nat.le_refl _) hgives

theorem gives_of_space (hc : c.rest = ' ' :: rest) (hrest : Marked rest)
    (hgives : Gives (on (c.skip 1) i is keyAllowed tokens candidate) ts) :
    Gives (on c i is keyAllowed tokens candidate) ts := by
  have hskip : (c.skip 1).rest = rest := by simp [Cursor.skip, hc]
  have hmarked : Marked (c.skip 1).rest := by rwa [hskip]
  have hnext : (on c i is keyAllowed tokens candidate).next? =
      (on (c.skip 1) i is keyAllowed tokens candidate).next? := by
    rw [next?_pad (m := 1) hc hrest, next?_marked hmarked]
  refine gives_of_next? hnext ?_ hgives
  simp [on, hskip, hc]

theorem gives_of_line (hc : c.rest = '\n' :: (pad m ++ rest)) (hrest : Marked rest)
    (hspare : Spare c candidate)
    (hgives : Gives (on (c.past ('\n' :: pad m)) i is true tokens none) ts) :
    Gives (on c i is keyAllowed tokens candidate) ts := by
  have hpast : (c.past ('\n' :: pad m)).rest = rest := Cursor.rest_past_of (by rw [hc]; rfl)
  have hmarked : Marked (c.past ('\n' :: pad m)).rest := by rwa [hpast]
  have hstale : Stale (c.past ('\n' :: pad m)) candidate := by
    apply hspare.stale
    rw [Cursor.line_past, List.countP_cons_of_pos rfl]
    omega
  have hnext : (on c i is keyAllowed tokens candidate).next? =
      (on (c.past ('\n' :: pad m)) i is true tokens none).next? := by
    rw [next?_line hc hrest, next?_marked hmarked, dropOutdated?_of_stale hstale]
    rfl
  refine gives_of_next? hnext ?_ hgives
  simp only [on, hpast, hc, List.length_cons, List.length_append]
  omega

/-! ## Blocks that end -/

theorem closeBlocks_closeBlocks {column column' : Int} (h : column ≤ column') (is : List Int)
    (l : Lexer)
    (hl : l.outerIndents = is) :
    closeBlocks column (closeBlocks column' is l).outerIndents (closeBlocks column' is l) =
      closeBlocks column is l := by
  induction is generalizing l with
  | nil => rw [closeBlocks, hl]
  | cons i is ih =>
    by_cases hclose : (!l.inFlow && decide (column' < l.indent)) = true
    · have hclose' : (!l.inFlow && decide (column < l.indent)) = true := by
        simp only [Bool.and_eq_true, decide_eq_true_eq] at hclose ⊢
        exact ⟨hclose.1, by omega⟩
      rw [closeBlocks, if_pos hclose, closeBlocks, if_pos hclose']
      exact ih _ rfl
    · rw [closeBlocks, if_neg hclose, hl]

theorem closeBlocks_on {column : Int} (h : column < j) :
    closeBlocks column (i :: is) (on c j (i :: is) keyAllowed tokens candidate) =
      closeBlocks column is (on c i is keyAllowed (.blockEnd :: tokens) candidate) := by
  have hclose : (!(on c j (i :: is) keyAllowed tokens candidate).inFlow &&
      decide (column < (on c j (i :: is) keyAllowed tokens candidate).indent)) = true := by
    rw [inFlow_on]
    exact decide_eq_true h
  rw [closeBlocks, if_pos hclose]
  rfl

theorem cursor_closeBlocks (column : Int) (is : List Int) (l : Lexer) :
    (closeBlocks column is l).cursor = l.cursor := by
  induction is generalizing l with
  | nil => rfl
  | cons i is ih =>
    rw [closeBlocks]
    split
    · rw [ih]
      rfl
    · rfl

/-- A candidate that may still be a key. -/
def Fresh (c : Cursor) (candidate : Option Candidate) : Prop :=
  ∀ k ∈ candidate, outdated c k = false

theorem fresh_none : Fresh c none := by simp [Fresh]

theorem run?_on (hc : Marked c.rest) (hfresh : Fresh c candidate) (fuel : Nat) :
    run? (fuel + 1) (on c i is keyAllowed tokens candidate) =
      match c.head with
      | some d =>
        ((closeBlocks c.column is (on c i is keyAllowed tokens candidate)).begin? d).bind
          (run? fuel)
      | none => (closeBlocks c.column is (on c i is keyAllowed tokens candidate)).closeAll? := by
  rw [run?_succ, next?_marked hc, dropOutdated?_of_fresh hfresh, Option.bind_some]
  simp only [cursor_closeBlocks]
  rfl

/-- A block ends before what is not so deep, and at the end of the text. -/
theorem gives_of_close (hc : Marked c.rest)
    (hcolumn : (c.rest = [] ∧ -1 < j) ∨ (c.column : Int) < j)
    (hgives : Gives (on c i is keyAllowed (.blockEnd :: tokens) none) ts) :
    Gives (on c j (i :: is) keyAllowed tokens none) ts := by
  intro fuel hfuel
  have h := hgives fuel hfuel
  obtain ⟨fuel, rfl⟩ : ∃ k, fuel = k + 1 := ⟨fuel - 1, by omega⟩
  rw [run?_on hc fresh_none] at h ⊢
  by_cases hdeep : (c.column : Int) < j
  · rwa [closeBlocks_on hdeep]
  · obtain ⟨hend, hj⟩ := hcolumn.resolve_right hdeep
    have hhead : c.head = none := by rw [Cursor.head, hend, List.head?_nil]
    have hbound : (-1 : Int) ≤ c.column := by omega
    rw [hhead] at h ⊢
    simp only [closeAll?] at h ⊢
    rw [closeBlocks_closeBlocks hbound is (on c i is keyAllowed (.blockEnd :: tokens) none)
      rfl] at h
    rwa [closeBlocks_closeBlocks hbound (i :: is) (on c j (i :: is) keyAllowed tokens none) rfl,
      closeBlocks_on hj]

/-- The end of the text. -/
theorem gives_of_end (hc : c.rest = []) :
    Gives (on c (-1) [] keyAllowed tokens none) tokens.reverse := by
  intro fuel hfuel
  obtain ⟨fuel, rfl⟩ : ∃ k, fuel = k + 1 := ⟨fuel - 1, by omega⟩
  have hmarked : Marked c.rest := by
    rw [hc]
    exact nofun
  have hhead : c.head = none := by rw [Cursor.head, hc, List.head?_nil]
  rw [run?_on hmarked fresh_none, hhead]
  rfl

/-- A token is read. -/
theorem gives_of_begin (hc : Marked c.rest) (hhead : c.head = some d) (hcolumn : i ≤ c.column)
    (hfresh : Fresh c candidate)
    (hbegin : (on c i is keyAllowed tokens candidate).begin? d = some l')
    (hshort : l'.cursor.rest.length < c.rest.length) (hgives : Gives l' ts) :
    Gives (on c i is keyAllowed tokens candidate) ts := by
  intro fuel hfuel
  have hlength : (on c i is keyAllowed tokens candidate).cursor.rest.length = c.rest.length := rfl
  obtain ⟨fuel, rfl⟩ : ∃ k, fuel = k + 1 := ⟨fuel - 1, by omega⟩
  have hopen : closeBlocks c.column is (on c i is keyAllowed tokens candidate) =
      on c i is keyAllowed tokens candidate := by
    cases is with
    | nil => rfl
    | cons j is =>
      have hshallow : decide ((c.column : Int) < i) = false := decide_eq_false (by omega)
      rw [closeBlocks, if_neg]
      rw [inFlow_on, Bool.not_false, Bool.true_and, indent_on, hshallow]
      exact Bool.false_ne_true
  rw [run?_on hc hfresh, hhead, hopen]
  simp only [hbegin, Option.bind_some]
  exact hgives fuel (by omega)

end Lexer

end TestOrchestrator.Yaml
