import TestOrchestrator.Proofs.ReadBack.PlainText
import TestOrchestrator.Proofs.ReadBack.BlockText
import TestOrchestrator.Proofs.ReadBack.Reading
/-!
# Marks of blocks

* `Lexer.gives_of_open` and `Lexer.gives_of_mark` read a dash, a question mark or a lone colon,
  where it opens a block and where the block is open already.
* `Lexer.gives_of_colon_open` and `Lexer.gives_of_colon` read the colon behind a key on its line.
-/

namespace TestOrchestrator.Yaml

namespace Lexer

open Quoting Scalar

variable {c c' : Cursor} {i : Int} {is : List Int} {keyAllowed : Bool} {tokens ts : List Token}
  {candidate : Option Candidate} {d e : Char} {ds rest : List Char} {t u : Token}

theorem atDocumentMark_of_head (h : c.rest.head? ≠ some d) : c.atDocumentMark d = false := by
  have hpeek : c.peek 0 ≠ some d := by rwa [Cursor.peek, ← List.head?_eq_getElem?]
  simp [Cursor.atDocumentMark, hpeek]

theorem atDocumentMark_of_next (hc : c.rest = e :: ds) (h : isGap ds.head? = true)
    (hd : isGap (some d) = false) : c.atDocumentMark d = false := by
  have hpeek : c.peek 1 ≠ some d := by
    rw [Cursor.peek, hc, List.getElem?_cons_succ, ← List.head?_eq_getElem?]
    intro hhead
    rw [hhead, hd] at h
    cases h
  simp [Cursor.atDocumentMark, hpeek]

/-! ## Marks with a gap behind them -/

/-- The token of a mark, and the one for the block that it may open. -/
def blockMark? : Char → Option (Token × Token)
  | '-' => some (.blockSequenceStart, .blockEntry)
  | '?' => some (.blockMappingStart, .key)
  | ':' => some (.blockMappingStart, .value)
  | _ => none

theorem begin?_mark (hmark : blockMark? d = some (t, u)) (hc : c.rest = d :: ds)
    (hgap : isGap ds.head? = true) :
    (on c i is true tokens none).begin? d =
      some (if i < c.column then on (c.skip 1) c.column (i :: is) true (u :: t :: tokens) none
        else on (c.skip 1) i is true (u :: tokens) none) := by
  have hdash : c.atDocumentMark '-' = false := atDocumentMark_of_next hc hgap rfl
  have hdot : c.atDocumentMark '.' = false := atDocumentMark_of_next hc hgap rfl
  have hnext : isGap (c.peek 1) = true := by
    rw [Cursor.peek, hc, List.getElem?_cons_succ, ← List.head?_eq_getElem?]
    exact hgap
  by_cases hopen : i < (c.column : Int)
  · unfold blockMark? at hmark
    split at hmark <;> cases hmark <;>
      simp [begin?, hdash, hdot, hnext, dash?, question?, colon?, openBlock, hopen, dropCandidate?,
        insert, push, skip, on, inFlow]
  · unfold blockMark? at hmark
    split at hmark <;> cases hmark <;>
      simp [begin?, hdash, hdot, hnext, dash?, question?, colon?, openBlock, hopen, dropCandidate?,
        push, skip, on, inFlow]

theorem marked_of_blockMark? (hmark : blockMark? d = some (t, u)) (ds : List Char) :
    Marked (d :: ds) ∧ isBreak d = false := by
  unfold blockMark? at hmark
  split at hmark <;> cases hmark <;>
    exact ⟨fun e he => by cases he; decide, rfl⟩

/-- A mark that opens a block. -/
theorem gives_of_open (hmark : blockMark? d = some (t, u)) (hc : c.rest = d :: ds)
    (hgap : isGap ds.head? = true) (hcolumn : i < c.column)
    (hgives : Gives (on (c.past [d]) c.column (i :: is) true (u :: t :: tokens) none) ts) :
    Gives (on c i is true tokens none) ts := by
  obtain ⟨hmarked, hbreak⟩ := marked_of_blockMark? hmark ds
  have hpast : c.past [d] = c.skip 1 := Cursor.past_eq_skip (by simp [hbreak])
  have hbegin : (on c i is true tokens none).begin? d =
      some (on (c.past [d]) c.column (i :: is) true (u :: t :: tokens) none) := by
    rw [begin?_mark hmark hc hgap, if_pos hcolumn, hpast]
  refine gives_of_begin (by rwa [hc]) (by simp [Cursor.head, hc]) (by omega) fresh_none hbegin
    ?_ hgives
  rw [cursor_on, Cursor.rest_past_of (show c.rest = [_] ++ ds from hc), hc]
  exact Nat.lt_succ_self _

/-- A mark of the block that is open. -/
theorem gives_of_mark (hmark : blockMark? d = some (t, u)) (hc : c.rest = d :: ds)
    (hgap : isGap ds.head? = true) (hcolumn : i = c.column)
    (hgives : Gives (on (c.past [d]) i is true (u :: tokens) none) ts) :
    Gives (on c i is true tokens none) ts := by
  obtain ⟨hmarked, hbreak⟩ := marked_of_blockMark? hmark ds
  have hpast : c.past [d] = c.skip 1 := Cursor.past_eq_skip (by simp [hbreak])
  have hbegin : (on c i is true tokens none).begin? d =
      some (on (c.past [d]) i is true (u :: tokens) none) := by
    rw [begin?_mark hmark hc hgap, if_neg (by omega), hpast]
  refine gives_of_begin (by rwa [hc]) (by simp [Cursor.head, hc]) (by omega) fresh_none hbegin
    ?_ hgives
  rw [cursor_on, Cursor.rest_past_of (show c.rest = [_] ++ ds from hc), hc]
  exact Nat.lt_succ_self _

/-! ## The colon behind a key -/

theorem insert_on (later : List Token) :
    (on c i is keyAllowed (later ++ tokens) candidate).insert tokens.length t =
      on c i is keyAllowed (later ++ t :: tokens) candidate := by
  have hlater : (later ++ tokens).length - tokens.length = later.length := by
    rw [List.length_append]
    omega
  simp [insert, on, Nat.add_assoc]

/-- The marks of a key go before the tokens that the key turned out to be. -/
theorem begin?_colon {k : Cursor} {required : Bool} {later : List Token} (hc : c.rest = ':' :: ds)
    (hgap : isGap ds.head? = true) :
    (on c i is false (later ++ tokens) (some ⟨required, tokens.length, k⟩)).begin? ':' =
      some (if i < k.column then
          on (c.skip 1) k.column (i :: is) false
            (.value :: (later ++ .key :: .blockMappingStart :: tokens)) none
        else on (c.skip 1) i is false (.value :: (later ++ .key :: tokens)) none) := by
  have hdash : c.atDocumentMark '-' = false := atDocumentMark_of_next hc hgap rfl
  have hdot : c.atDocumentMark '.' = false := atDocumentMark_of_next hc hgap rfl
  have hnext : isGap (c.peek 1) = true := by
    rw [Cursor.peek, hc, List.getElem?_cons_succ, ← List.head?_eq_getElem?]
    exact hgap
  have hcolon : (on c i is false (later ++ tokens) (some ⟨required, tokens.length, k⟩)).begin? ':' =
      (on c i is false (later ++ tokens) (some ⟨required, tokens.length, k⟩)).colon? := by
    simp [begin?, hdash, hdot, hnext]
  have hkey : (on c i is false (later ++ tokens) (some ⟨required, tokens.length, k⟩)).insert
      tokens.length .key =
      on c i is false (later ++ [.key] ++ tokens) (some ⟨required, tokens.length, k⟩) := by
    rw [insert_on, List.append_assoc, List.singleton_append]
  have hstart :
      (on c i is false (later ++ [.key] ++ tokens) (some ⟨required, tokens.length, k⟩)).insert
      tokens.length .blockMappingStart =
        on c i is false (later ++ [.key] ++ .blockMappingStart :: tokens)
          (some ⟨required, tokens.length, k⟩) :=
    insert_on _
  rw [hcolon]
  simp only [colon?, candidate_on, hkey, openBlock, inFlow_on, indent_on, hstart]
  by_cases hopen : i < (k.column : Int)
  · simp [hopen, on, push, skip]
  · simp [hopen, on, push, skip]

/-- The first key of a block on its line, with the colon behind it. -/
theorem gives_of_colon_open {k : Cursor} {required : Bool} {later : List Token}
    (hc : c.rest = ':' :: ds)
    (hgap : isGap ds.head? = true) (hcolumn : i < k.column) (hfar : i ≤ c.column)
    (hline : k.line = c.line)
    (hnear : c.index ≤ k.index + 1024)
    (hgives : Gives (on (c.past [':']) k.column (i :: is) false
      (.value :: (later ++ .key :: .blockMappingStart :: tokens)) none) ts) :
    Gives (on c i is false (later ++ tokens) (some ⟨required, tokens.length, k⟩)) ts := by
  have hmarked : Marked c.rest := hc ▸ (marked_of_blockMark? (d := ':') rfl ds).1
  have hbegin : (on c i is false (later ++ tokens) (some ⟨required, tokens.length, k⟩)).begin? ':' =
      some (on (c.past [':']) k.column (i :: is) false
        (.value :: (later ++ .key :: .blockMappingStart :: tokens)) none) := by
    rw [begin?_colon hc hgap, if_pos hcolumn]
    rfl
  refine gives_of_begin hmarked (by simp [Cursor.head, hc]) hfar ?_ hbegin ?_ hgives
  · intro k' hk'
    cases hk'
    simp [outdated, hline, hnear]
  · rw [cursor_on, Cursor.rest_past_of (show c.rest = [_] ++ ds from hc), hc]
    exact Nat.lt_succ_self _

/-- Another key of a block on its line, with the colon behind it. -/
theorem gives_of_colon {k : Cursor} {required : Bool} {later : List Token} (hc : c.rest = ':' :: ds)
    (hgap : isGap ds.head? = true) (hcolumn : i = k.column) (hfar : i ≤ c.column)
    (hline : k.line = c.line)
    (hnear : c.index ≤ k.index + 1024)
    (hgives : Gives (on (c.past [':']) i is false (.value :: (later ++ .key :: tokens)) none) ts) :
    Gives (on c i is false (later ++ tokens) (some ⟨required, tokens.length, k⟩)) ts := by
  have hmarked : Marked c.rest := hc ▸ (marked_of_blockMark? (d := ':') rfl ds).1
  have hbegin : (on c i is false (later ++ tokens) (some ⟨required, tokens.length, k⟩)).begin? ':' =
      some (on (c.past [':']) i is false (.value :: (later ++ .key :: tokens)) none) := by
    rw [begin?_colon hc hgap, if_neg (by omega)]
    rfl
  refine gives_of_begin hmarked (by simp [Cursor.head, hc]) hfar ?_ hbegin ?_ hgives
  · intro k' hk'
    cases hk'
    simp [outdated, hline, hnear]
  · rw [cursor_on, Cursor.rest_past_of (show c.rest = [_] ++ ds from hc), hc]
    exact Nat.lt_succ_self _

end Lexer

end TestOrchestrator.Yaml
