import TestOrchestrator.Proofs.ReadBack.Marks
/-!
# Words

* `Lexer.gives_of_quoted`, `Lexer.gives_of_plain_key`, `Lexer.gives_of_plain_line` and
  `Lexer.gives_of_literal` read a scalar in each of its styles; `Lexer.gives_of_empty` reads an
  empty collection.
* `Lexer.begun` is the place where a key may have begun behind a word.
-/

namespace TestOrchestrator.Yaml

namespace Lexer

open Quoting Scalar

variable {c c' : Cursor} {i : Int} {is : List Int} {keyAllowed : Bool} {tokens ts : List Token}
  {candidate : Option Candidate} {d e : Char} {cs ds rest : List Char} {t : Token} {m : Nat}

/-! ## Candidates -/

/-- The place where a key may have begun, behind a word. -/
def begun (c : Cursor) (i : Int) (keyAllowed : Bool) (tokens : List Token)
    (candidate : Option Candidate) :
    Option Candidate :=
  if keyAllowed then some ⟨decide (i = c.column), tokens.length, c⟩ else candidate

theorem spare_begun (hcolumn : i < c.column) (h : Spare c candidate) :
    Spare c (begun c i keyAllowed tokens candidate) := by
  cases keyAllowed with
  | false => exact h
  | true =>
    intro k hk
    cases hk
    exact ⟨decide_eq_false (by omega), Nat.le_refl _⟩

theorem mayBeKey?_on (hcandidate : keyAllowed = true → candidate = none) :
    (on c i is keyAllowed tokens candidate).mayBeKey? =
      some (on c i is keyAllowed tokens (begun c i keyAllowed tokens candidate)) := by
  cases keyAllowed with
  | false => rfl
  | true =>
    rw [hcandidate rfl]
    rfl

theorem word?_on (hcandidate : keyAllowed = true → candidate = none) :
    (on c i is keyAllowed tokens candidate).word? t c' =
      some (on c' i is false (t :: tokens) (begun c i keyAllowed tokens candidate)) := by
  rw [word?, mayBeKey?_on hcandidate]
  rfl

/-! ## Quoted text -/

theorem begin?_quote (double : Bool) (hc : c.rest = quote double :: ds) :
    (on c i is keyAllowed tokens candidate).begin? (quote double) =
      (on c i is keyAllowed tokens candidate).quoted? double := by
  have hdash : c.atDocumentMark '-' = false :=
    atDocumentMark_of_head (by rw [hc]; cases double <;> simp [quote])
  have hdot : c.atDocumentMark '.' = false :=
    atDocumentMark_of_head (by rw [hc]; cases double <;> simp [quote])
  cases double <;> simp [begin?, hdash, hdot, quote]

/-- The style of text between quotes. -/
def quotedStyle (double : Bool) : Style := if double then .doubleQuoted else .singleQuoted

theorem gives_of_quoted {double : Bool} {n : Nat} {written : List Char}
    (h : Quoted double n cs written)
    (hc : c.rest = quote double :: (written ++ quote double :: rest))
    (hrest : double = false → rest.head? ≠ some '\'') (hcolumn : i ≤ c.column)
    (hfresh : Fresh c candidate)
    (hcandidate : keyAllowed = true → candidate = none)
    (hgives : Gives (on (c.past (quote double :: written ++ [quote double])) i is false
      (.scalar (quotedStyle double) cs :: tokens) (begun c i keyAllowed tokens candidate)) ts) :
    Gives (on c i is keyAllowed tokens candidate) ts := by
  have hmarked : Marked c.rest := by
    rw [hc]
    intro e he
    cases he
    cases double <;> decide
  have hread := quoted?_eq h hc hrest
  have hbegin : (on c i is keyAllowed tokens candidate).begin? (quote double) =
      some (on (c.past (quote double :: written ++ [quote double])) i is false
        (.scalar (quotedStyle double) cs :: tokens) (begun c i keyAllowed tokens candidate)) := by
    rw [begin?_quote double hc, Lexer.quoted?, cursor_on, hread]
    exact word?_on hcandidate
  refine gives_of_begin hmarked (by simp [Cursor.head, hc]) hcolumn hfresh hbegin ?_ hgives
  rw [cursor_on, Cursor.rest_past_of (show c.rest = _ ++ rest by rw [hc]; simp), hc]
  simp only [List.length_cons, List.length_append]
  omega

/-! ## Plain text -/

theorem begin?_plain (h : FitsPlain (d :: ds)) (hresumes : Resumes c)
    (hc : c.rest = d :: ds ++ rest) :
    (on c i is keyAllowed tokens candidate).begin? d =
      (on c i is keyAllowed tokens candidate).plain? := by
  have hmarks := hresumes.noMark
  simp only [Cursor.atAnyDocumentMark, Bool.or_eq_false_iff] at hmarks
  have hfluent := h.fluent
  have hmark := h.hasMark
  simp only [hasMark, Bool.or_eq_false_iff] at hmark
  obtain ⟨⟨⟨⟨⟨hfirst, hdashed⟩, -⟩, -⟩, hcolon⟩, -⟩ := hmark
  rw [hasColon, Bool.or_eq_false_iff] at hcolon
  have hnext : d = '-' ∨ d = '?' ∨ d = ':' → isGap (c.peek 1) = false := by
    intro hd
    have hend : isEnd ds.head? = false := by
      rcases hd with rfl | rfl | rfl
      · simpa using hdashed
      · simpa using hdashed
      · simpa using hcolon.1
    cases ds with
    | nil => cases hend
    | cons e ds =>
      rw [isEnd, Bool.or_eq_false_iff] at hend
      rw [Cursor.peek, hc]
      exact hend.1
  obtain ⟨hprintable, hbreak⟩ := hfluent.printable d List.mem_cons_self
  have hspace : isSpace d = false :=
    isSpace_of_isPrintable hprintable (by simpa using hfluent.first)
  have hany : d ≠ '%' ∧ d ≠ '[' ∧ d ≠ '\x7b' ∧ d ≠ ']' ∧ d ≠ '\x7d' ∧ d ≠ ',' ∧ d ≠ '*' ∧ d ≠ '&' ∧
      d ≠ '!' ∧
      d ≠ '|' ∧ d ≠ '>' ∧ d ≠ '\'' ∧ d ≠ '"' := by
    refine ⟨?_, ?_, ?_, ?_, ?_, ?_, ?_, ?_, ?_, ?_, ?_, ?_, ?_⟩ <;>
      · rintro rfl
        revert hfirst
        decide
  have hplain : beginsPlain false d (c.peek 1) = true := by
    by_cases hdash : d = '-'
    · have hgap := hnext (.inl hdash)
      cases hpeek : c.peek 1 with
      | none => rw [hpeek] at hgap; cases hgap
      | some e =>
        rw [hpeek, isGap, Bool.or_eq_false_iff] at hgap
        simp [beginsPlain, hdash, hgap.1]
    · by_cases hquestion : d = '?' ∨ d = ':'
      · simp [beginsPlain, hdash, hquestion, hnext (.inr hquestion)]
      · rw [isMark, Bool.or_eq_false_iff] at hfirst
        rw [beginsPlain, if_neg hdash, if_neg (by simpa using hquestion)]
        simp only [hspace, hbreak, hfirst]
        rfl
  have hgap : ∀ e, e = '-' ∨ e = '?' ∨ e = ':' → (decide (d = e) && isGap (c.peek 1)) = false := by
    intro e he
    by_cases hd : d = e
    · rw [hnext (hd ▸ he), Bool.and_false]
    · simp [hd]
  simp [begin?, hmarks.1, hmarks.2, hany, hgap, hplain]

theorem atDocumentMark_of_take (h : cs.take 3 ≠ [d, d, d]) (hc : c.rest = cs ++ e :: rest)
    (he : e ≠ d) :
    c.atDocumentMark d = false := by
  by_contra hmark
  simp only [Cursor.atDocumentMark, Cursor.peek, hc, Bool.not_eq_false, Bool.and_eq_true,
    decide_eq_true_eq] at hmark
  obtain ⟨⟨⟨⟨-, h0⟩, h1⟩, h2⟩, -⟩ := hmark
  rcases cs with _ | ⟨x, _ | ⟨y, _ | ⟨z, cs⟩⟩⟩
  · exact he (by simpa using h0)
  · exact he (by simpa using h1)
  · exact he (by simpa using h2)
  · simp only [List.cons_append, List.getElem?_cons_zero, List.getElem?_cons_succ,
      Option.some.injEq] at h0 h1 h2
    exact h (by simp [h0, h1, h2])

theorem resumes_of_fitsPlain (h : FitsPlain cs) (hc : c.rest = cs ++ e :: rest)
    (he : e ≠ '-' ∧ e ≠ '.') :
    Resumes c := by
  have hmark := h.hasMark
  simp only [hasMark, Bool.or_eq_false_iff, decide_eq_false_iff_not] at hmark
  obtain ⟨⟨⟨⟨hfirst, hdash⟩, hdot⟩, -⟩, -⟩ := hmark
  constructor
  · rw [Cursor.atAnyDocumentMark, atDocumentMark_of_take hdash hc he.1,
      atDocumentMark_of_take hdot hc he.2]
    rfl
  · obtain ⟨d, ds, rfl⟩ := List.exists_cons_of_ne_nil h.ne_nil
    have hd : d ≠ '#' := by
      rintro rfl
      rw [Bool.or_eq_false_iff] at hfirst
      cases hfirst.1
    simp [Cursor.startsWith, hc, hd]

theorem marked_of_fitsPlain (h : FitsPlain cs) (rest : List Char) : Marked (cs ++ rest) := by
  have hmark := h.hasMark
  have hfluent := h.fluent
  simp only [hasMark, Bool.or_eq_false_iff, decide_eq_false_iff_not] at hmark
  obtain ⟨⟨⟨⟨hfirst, hdash⟩, hdot⟩, -⟩, -⟩ := hmark
  obtain ⟨d, ds, rfl⟩ := List.exists_cons_of_ne_nil h.ne_nil
  rw [Bool.or_eq_false_iff] at hfirst
  obtain ⟨hprintable, hbreak⟩ := hfluent.printable d List.mem_cons_self
  intro e he
  cases he
  refine ⟨isSpace_of_isPrintable hprintable (by simpa using hfluent.first), hbreak, ?_, ?_⟩
  · rintro rfl
    cases hfirst.1
  · rintro rfl
    revert hprintable
    decide

theorem plain?_on {broken : Bool} (hcandidate : keyAllowed = true → candidate = none)
    (hread : Scalar.plain? false (i + 1).toNat c = some (cs, c', broken)) :
    (on c i is keyAllowed tokens candidate).plain? =
      some (on c' i is broken (.scalar .plain cs :: tokens)
        (begun c i keyAllowed tokens candidate)) := by
  rw [Lexer.plain?, inFlow_on, indent_on, cursor_on, hread]
  change ((on c i is keyAllowed tokens candidate).word? _ c').bind _ = _
  rw [word?_on hcandidate]
  rfl

/-- Plain text before a colon. -/
theorem gives_of_plain_key (h : FitsPlain cs) (hc : c.rest = cs ++ ':' :: rest)
    (hgap : isGap rest.head? = true)
    (hcolumn : i ≤ c.column) (hfresh : Fresh c candidate)
    (hcandidate : keyAllowed = true → candidate = none)
    (hgives : Gives (on (c.past cs) i is false (.scalar .plain cs :: tokens)
      (begun c i keyAllowed tokens candidate)) ts) :
    Gives (on c i is keyAllowed tokens candidate) ts := by
  have hresumes : Resumes c := resumes_of_fitsPlain h hc (by decide)
  have hfloor : (i + 1).toNat ≤ c.column + 1 := by omega
  have hread := plain?_key h.fluent.worded hresumes hgap hc hfloor
  obtain ⟨d, ds, rfl⟩ := List.exists_cons_of_ne_nil h.ne_nil
  have hbegin : (on c i is keyAllowed tokens candidate).begin? d =
      some (on (c.past (d :: ds)) i is false (.scalar .plain (d :: ds) :: tokens)
        (begun c i keyAllowed tokens candidate)) := by
    rw [begin?_plain h hresumes hc, plain?_on hcandidate hread]
  refine gives_of_begin (hc ▸ marked_of_fitsPlain h _) (by simp [Cursor.head, hc]) hcolumn hfresh
    hbegin ?_ hgives
  rw [cursor_on, Cursor.rest_past_of hc, hc, List.length_append]
  simp

/-- Plain text at the end of a line. -/
theorem gives_of_plain_line (h : FitsPlain cs) (hc : c.rest = cs ++ '\n' :: (pad m ++ rest))
    (hrest : Marked rest) (hend : rest = [] ∨ m ≤ i) (hcolumn : i < c.column)
    (hfresh : Fresh c candidate)
    (hcandidate : keyAllowed = true → candidate = none)
    (hspare : Spare c candidate)
    (hgives : Gives (on (c.past (cs ++ '\n' :: pad m)) i is true (.scalar .plain cs :: tokens) none)
      ts) :
    Gives (on c i is keyAllowed tokens candidate) ts := by
  have hresumes : Resumes c := resumes_of_fitsPlain h hc (by decide)
  have hsolid : Solid rest := fun e he => ⟨(hrest e he).1, (hrest e he).2.1⟩
  have hfloor : (i + 1).toNat ≤ c.column + 1 := by omega
  have hshallow : rest = [] ∨ m < (i + 1).toNat := hend.imp_right fun hm => by omega
  have hread := plain?_line h.fluent.worded hresumes hsolid hshallow hc hfloor
  have hnext : (c.past (cs ++ '\n' :: pad m)).rest = rest := Cursor.rest_past_of (by rw [hc]; simp)
  have hline : c.line < (c.past (cs ++ '\n' :: pad m)).line := by
    rw [Cursor.line_past, List.countP_append, List.countP_cons_of_pos rfl]
    omega
  have hstale : Stale (c.past (cs ++ '\n' :: pad m)) (begun c i keyAllowed tokens candidate) :=
    (spare_begun hcolumn hspare).stale hline
  obtain ⟨d, ds, rfl⟩ := List.exists_cons_of_ne_nil h.ne_nil
  have hbegin : (on c i is keyAllowed tokens candidate).begin? d =
      some (on (c.past (d :: ds ++ '\n' :: pad m)) i is true (.scalar .plain (d :: ds) :: tokens)
        (begun c i keyAllowed tokens candidate)) := by
    rw [begin?_plain h hresumes hc, plain?_on hcandidate hread]
  refine gives_of_begin (hc ▸ marked_of_fitsPlain h _) (by simp [Cursor.head, hc]) (by omega) hfresh
    hbegin ?_
    (gives_of_stale hstale (hnext.symm ▸ hrest) hgives)
  rw [cursor_on, hnext, hc]
  simp only [List.length_append, List.length_cons]
  omega

/-! ## Blocks of text -/

/-- A block of text at the end of a line. -/
theorem gives_of_literal {n : Nat} (hn : n = i.toNat + 2) (hne : cs ≠ [])
    (hprintable : ∀ d ∈ cs, isPrintable d = true)
    (hend : LineAt n m rest) (hm : m < n)
    (hc : c.rest = literal n cs ++ (closing cs ++ (pad m ++ rest)))
    (hcolumn : i < c.column) (hfresh : Fresh c candidate) (hspare : Spare c candidate)
    (hgives : Gives (on (c.past (literal n cs ++ (closing cs ++ pad m))) i is true
      (.scalar .literal cs :: tokens) none) ts) :
    Gives (on c i is keyAllowed tokens candidate) ts := by
  have hrest : c.rest = '|' :: (blockMarks cs ++
      '\n' :: (indented n true cs ++ (closing cs ++ (pad m ++ rest)))) := by
    rw [hc]
    simp [literal]
  have hnext : (c.skip 1).rest =
      blockMarks cs ++ '\n' :: (indented n true cs ++ (closing cs ++ (pad m ++ rest))) := by
    simp [Cursor.skip, hrest]
  have hpast : c.past (literal n cs ++ (closing cs ++ pad m)) =
      (c.skip 1).past (blockMarks cs ++ '\n' :: (indented n true cs ++ (closing cs ++ pad m))) := by
    have hbreak : isBreak '|' = false := rfl
    simp [literal, Cursor.past_cons, hbreak]
  have hread := block?_literal hn hne hprintable hend hm hnext
  have hmarked : Marked c.rest := by
    rw [hrest]
    intro e he
    cases he
    decide
  have hdash : c.atDocumentMark '-' = false := atDocumentMark_of_head (by rw [hrest]; simp)
  have hdot : c.atDocumentMark '.' = false := atDocumentMark_of_head (by rw [hrest]; simp)
  have hdrop : (on c i is keyAllowed tokens candidate).dropCandidate? =
      some (on c i is keyAllowed tokens none) := by
    cases candidate with
    | none => rfl
    | some k => simp [dropCandidate?, on, (hspare k rfl).1]
  have hbegin : (on c i is keyAllowed tokens candidate).begin? '|' =
      some (on (c.past (literal n cs ++ (closing cs ++ pad m))) i is true
        (.scalar .literal cs :: tokens) none) := by
    have hblock : (on c i is keyAllowed tokens candidate).begin? '|' =
        (on c i is keyAllowed tokens candidate).block? true := by
      simp [begin?, hdash, hdot]
    rw [hblock, Lexer.block?, hdrop]
    change (Scalar.block? true i (c.skip 1)).bind _ = _
    rw [hread, hpast]
    rfl
  refine gives_of_begin hmarked (by simp [Cursor.head, hrest]) (by omega) hfresh hbegin ?_ hgives
  rw [cursor_on, Cursor.rest_past_of (show c.rest = _ ++ rest by rw [hc]; simp), hc]
  simp only [literal, List.length_append, List.length_cons]
  omega

/-! ## Empty collections -/

/-- The bracket or brace that opens a collection. -/
def opener (mapping : Bool) : Char := if mapping then '\x7b' else '['

/-- The bracket or brace that closes a collection. -/
def closer (mapping : Bool) : Char := if mapping then '\x7d' else ']'

/-- The token of an opening bracket or brace. -/
def openToken (mapping : Bool) : Token := if mapping then .flowMappingStart else .flowSequenceStart

/-- The token of a closing bracket or brace. -/
def closeToken (mapping : Bool) : Token := if mapping then .flowMappingEnd else .flowSequenceEnd

/-- A lexer behind an opening bracket. -/
def inside (c : Cursor) (i : Int) (is : List Int) (tokens : List Token)
    (candidate : Option Candidate) : Lexer :=
  { on c i is true tokens none with depth := 1, outerCandidates := [candidate] }

theorem begin?_opener (mapping : Bool) (hc : c.rest = opener mapping :: ds)
    (hcandidate : keyAllowed = true → candidate = none) :
    (on c i is keyAllowed tokens candidate).begin? (opener mapping) =
      some (inside (c.skip 1) i is (openToken mapping :: tokens)
        (begun c i keyAllowed tokens candidate)) := by
  have hdash : c.atDocumentMark '-' = false :=
    atDocumentMark_of_head (by rw [hc]; cases mapping <;> simp [opener])
  have hdot : c.atDocumentMark '.' = false :=
    atDocumentMark_of_head (by rw [hc]; cases mapping <;> simp [opener])
  have hopen : (on c i is keyAllowed tokens candidate).begin? (opener mapping) =
      (on c i is keyAllowed tokens candidate).openFlow? (openToken mapping) := by
    cases mapping <;> simp [begin?, hdash, hdot, opener, openToken]
  rw [hopen, openFlow?, mayBeKey?_on hcandidate]
  rfl

theorem begin?_closer (mapping : Bool) (hc : c.rest = closer mapping :: ds) :
    (inside c i is tokens candidate).begin? (closer mapping) =
      some (on (c.skip 1) i is false (closeToken mapping :: tokens) candidate) := by
  have hdash : c.atDocumentMark '-' = false :=
    atDocumentMark_of_head (by rw [hc]; cases mapping <;> simp [closer])
  have hdot : c.atDocumentMark '.' = false :=
    atDocumentMark_of_head (by rw [hc]; cases mapping <;> simp [closer])
  cases mapping <;>
    simp [begin?, hdash, hdot, closer, inside, on, closeFlow?, dropCandidate?, push, skip,
      closeToken]

theorem fresh?_eq (h : ∀ k ∈ candidate, k.required = true → outdated c k = false) :
    fresh? c candidate = some (candidate.filter (!outdated c ·)) := by
  cases candidate with
  | none => rfl
  | some k =>
    cases houtdated : outdated c k with
    | false => simp [fresh?, houtdated, Option.filter]
    | true =>
      have hrequired : k.required = false := by
        by_contra hrequired
        rw [h k rfl (by simpa using hrequired)] at houtdated
        cases houtdated
      simp [fresh?, houtdated, hrequired, Option.filter]

theorem next?_inside (hc : Marked c.rest)
    (h : ∀ k ∈ candidate, k.required = true → outdated c k = false) :
    (inside c i is tokens candidate).next? =
      some (inside c i is tokens (candidate.filter (!outdated c ·))) := by
  have hgaps := skipGaps_pad (l := inside c i is tokens candidate) (m := 0) rfl hc
    (inside c i is tokens candidate).cursor.rest.length
  have hskip : { inside c i is tokens candidate with cursor := c.skip 0 } =
    inside c i is tokens candidate := by
    rw [Cursor.skip_zero]
    rfl
  rw [next?, hgaps]
  change ({ inside c i is tokens candidate with cursor := c.skip 0 } : Lexer).dropOutdated? = _
  rw [hskip]
  have houter : [candidate].mapM (fresh? c) = some [candidate.filter (!outdated c ·)] := by
    simp [fresh?_eq h]
  simp only [dropOutdated?, inside, on, fresh?, houter]
  rfl

theorem closeBlocks_inside (column : Int) (js : List Int) :
    closeBlocks column js (inside c i is tokens candidate) = inside c i is tokens candidate := by
  cases js with
  | nil => rfl
  | cons j js => simp [closeBlocks, inside, inFlow]

/-- An empty collection. A candidate before it may be outdated behind the bracket. -/
theorem gives_of_empty (mapping : Bool) (hc : c.rest = opener mapping :: closer mapping :: rest)
    (hcolumn : i ≤ c.column) (hfresh : Fresh c candidate)
    (hcandidate : keyAllowed = true → candidate = none)
    (hspare : ∀ k ∈ begun c i keyAllowed tokens candidate, k.required = true →
      outdated (c.skip 1) k = false)
    (hgives : Gives (on (c.past [opener mapping, closer mapping]) i is false
      (closeToken mapping :: openToken mapping :: tokens)
      ((begun c i keyAllowed tokens candidate).filter (!outdated (c.skip 1) ·))) ts) :
    Gives (on c i is keyAllowed tokens candidate) ts := by
  have hnext : (c.skip 1).rest = closer mapping :: rest := by simp [Cursor.skip, hc]
  have hpast : c.past [opener mapping, closer mapping] = (c.skip 1).skip 1 := by
    cases mapping <;> rfl
  have hmarked : Marked c.rest ∧ Marked (c.skip 1).rest := by
    rw [hnext, hc]
    constructor <;>
      · intro e he
        cases he
        cases mapping <;> decide
  have hinside : Gives (inside (c.skip 1) i is (openToken mapping :: tokens)
      (begun c i keyAllowed tokens candidate)) ts := by
    intro fuel hfuel
    obtain ⟨fuel, rfl⟩ : ∃ k, fuel = k + 1 := ⟨fuel - 1, by omega⟩
    rw [run?_succ, next?_inside hmarked.2 hspare, Option.bind_some]
    simp only [closeBlocks_inside]
    have hhead : (inside (c.skip 1) i is (openToken mapping :: tokens)
        ((begun c i keyAllowed tokens candidate).filter (!outdated (c.skip 1) ·))).cursor.head =
          some (closer mapping) := by
      change (c.skip 1).rest.head? = _
      rw [hnext, List.head?_cons]
    simp only [hhead, begin?_closer mapping hnext, Option.bind_some, ← hpast]
    apply hgives
    rw [cursor_on, hpast]
    change (c.skip 1).rest.length < fuel + 1 at hfuel
    rw [hnext, List.length_cons] at hfuel
    simp only [Cursor.skip, hc, List.drop_succ_cons, List.drop_zero]
    omega
  refine gives_of_begin hmarked.1 (by simp [Cursor.head, hc]) hcolumn hfresh
    (begin?_opener mapping hc hcandidate) ?_ hinside
  change (c.skip 1).rest.length < _
  rw [hnext, hc]
  exact Nat.lt_succ_self _

end Lexer

end TestOrchestrator.Yaml
