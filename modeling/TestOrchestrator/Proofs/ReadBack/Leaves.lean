import TestOrchestrator.Proofs.ReadBack.Words
import TestOrchestrator.Proofs.ReadBack.Numbers
/-!
# Leaves

* `LeafForm n w new` says that the text `w` is one of the forms of a leaf whose further lines are
  indented by `n`, and that its tokens are `new`. `Value.leafForm`: every leaf is written in one of
  them.
* `Lexer.gives_of_leaf_line` and `Lexer.gives_of_leaf_key` read a leaf at the end of a line and
  before a colon.
-/

namespace TestOrchestrator.Yaml

open Quoting Scalar

/-! ## Forms -/

/-- The forms of a leaf, with their tokens. -/
inductive LeafForm (n : Nat) : List Char → List Token → Prop
  | plain {cs : List Char} (fits : FitsPlain cs) : LeafForm n cs [.scalar .plain cs]
  | quoted {cs written : List Char} (double : Bool) (quoted : Quoted double n cs written) :
      LeafForm n (quote double :: written ++ [quote double]) [.scalar (Lexer.quotedStyle double) cs]
  | literal {cs : List Char} (ne_nil : cs ≠ []) (printable : ∀ d ∈ cs, isPrintable d = true)
      (indented : 0 < n) : LeafForm n (literal n cs) [.scalar .literal cs]
  | empty (mapping : Bool) :
      LeafForm n [Lexer.opener mapping, Lexer.closer mapping] [Lexer.openToken mapping,
        Lexer.closeToken mapping]

namespace Quoting

variable {cs : List Char} {n : Nat}

/-- What the style of a text says about it. -/
theorem style_cases (cs : List Char) :
    (style cs = .plain ∧ FitsPlain cs) ∨
    (style cs = .singleQuoted ∧ '\n' ∉ cs ∧ allowsSingle cs = true) ∨
    style cs = .doubleQuoted ∨
    (style cs = .literal ∧ '\n' ∈ cs ∧ allowsBlock cs = true) := by
  rw [style]
  split_ifs with hfeed hblock hplain hsingle
  · exact .inr (.inr (.inr ⟨rfl, by simpa using hfeed, hblock⟩))
  · exact .inr (.inr (.inl rfl))
  · rw [Bool.and_eq_true] at hplain
    refine .inl ⟨rfl, ?_, hplain.2⟩
    rintro rfl
    have hstring : readsAsString [] = false := by decide
    rw [hstring] at hplain
    cases hplain.1
  · exact .inr (.inl ⟨rfl, by simpa using hfeed, hsingle⟩)
  · exact .inr (.inr (.inl rfl))

theorem fitsSingle (hfeed : '\n' ∉ cs) (h : allowsSingle cs = true)
    (hn : 0 < n ∨ cs.any isBreak = false) : FitsSingle n cs := by
  simp only [allowsSingle, Bool.and_eq_true, Bool.not_eq_true'] at h
  refine ⟨List.all_eq_true.1 h.1.1, hfeed, h.1.2, h.2, ?_⟩
  intro hany
  rcases hn with hn | hn
  · exact hn
  · rw [hany] at hn
    cases hn

/-- A text in its style. -/
theorem leafForm_write (hn : 0 < n ∨ cs.any isBreak = false) :
    LeafForm n (write n cs) [.scalar (style cs) cs] := by
  rcases style_cases cs with ⟨hstyle, hplain⟩ | ⟨hstyle, hfeed, hsingle⟩ | hstyle | ⟨hstyle,
    hfeed, hblock⟩
  · rw [write, hstyle]
    exact .plain hplain
  · rw [write, hstyle, single_eq]
    exact .quoted false (fitsSingle hfeed hsingle hn).quoted
  · rw [write, hstyle]
    exact .quoted true (quoted_double n cs)
  · rw [write, hstyle]
    simp only [allowsBlock, Bool.and_eq_true, decide_eq_true_eq] at hblock
    refine .literal hblock.1.1.2 (List.all_eq_true.1 hblock.1.1.1) (hn.resolve_right fun hany => ?_)
    rw [List.any_eq_false] at hany
    exact hany '\n' hfeed rfl

end Quoting

namespace Value

/-- A value that is not tagged and no collection with something in it. -/
def isLeaf : Value → Bool
  | tagged .. | seq (_ :: _) | map (_ :: _) => false
  | _ => true

/-- The tokens of a leaf. -/
def leafTokens : Value → List Token
  | str s => [.scalar (style s.toList) s.toList]
  | seq _ => [.flowSequenceStart, .flowSequenceEnd]
  | map _ => [.flowMappingStart, .flowMappingEnd]
  | v => [.scalar .plain (leafText v)]

/-- **A leaf is written in one of the forms of leaves.** -/
theorem leafForm {v : Value} {n : Nat} (h : v.isLeaf = true)
    (hn : 0 < n ∨ (leafText v).any isBreak = false) :
    LeafForm n (leaf n v) v.leafTokens := by
  cases v with
  | null => exact .plain (fitsPlain_leafText (v := .null) rfl)
  | bool b => exact .plain (fitsPlain_leafText (v := .bool b) rfl)
  | int k => exact .plain (fitsPlain_leafText (v := .int k) rfl)
  | float x => exact .plain (fitsPlain_leafText (v := .float x) rfl)
  | str s => exact leafForm_write hn
  | seq items =>
    cases items with
    | nil => exact .empty false
    | cons v vs => cases h
  | map entries =>
    cases entries with
    | nil => exact .empty true
    | cons e es => cases h
  | tagged name v => cases h

end Value

namespace Lexer

variable {c : Cursor} {i : Int} {is : List Int} {keyAllowed : Bool} {tokens ts new : List Token}
  {candidate : Option Candidate} {w rest : List Char} {m n : Nat}

/-- What comes behind a value: a line that is not deeper than the block around it, or nothing. -/
structure Continues (i : Int) (m : Nat) (rest : List Char) : Prop where
  marked : Marked rest
  shallow : (rest = [] ∧ m = 0) ∨ m ≤ i

theorem Continues.lineAt (h : Continues i m rest) (hn : n = i.toNat + 2) :
    LineAt n m rest ∧ m < n := by
  have hm : m < n := by
    rcases h.shallow with ⟨-, rfl⟩ | hm <;> omega
  refine ⟨⟨.inr ⟨hm, fun hspace => ?_⟩, fun d hd => ⟨(h.marked d hd).2.1, ?_⟩⟩, hm⟩
  · have hspace' := (h.marked ' ' hspace).1
    cases hspace'
  · rintro rfl
    have htab := (h.marked '\t' hd).1
    cases htab

theorem endLine_of_getLast (h : w.getLast?.any isBreak = false) :
    Value.endLine w = w ++ ['\n'] := by
  rw [Value.endLine, h]
  rfl

theorem endLine_literal {cs : List Char} (hne : cs ≠ []) :
    Value.endLine (literal n cs) = literal n cs ++ closing cs := by
  have hlast : (literal n cs).getLast? = cs.getLast? := by
    have hne' : indented n true cs ≠ [] := by
      intro hnil
      have hlast := getLast?_indented n true cs
      rw [hnil] at hlast
      exact hne (List.getLast?_eq_none_iff.1 hlast.symm)
    rw [literal, List.getLast?_append_of_ne_nil _ (List.cons_ne_nil _ _)]
    obtain ⟨d, ds, hds⟩ := List.exists_cons_of_ne_nil hne'
    rw [hds, List.getLast?_cons_cons, ← hds, getLast?_indented]
  rw [Value.endLine, closing, hlast]
  split <;> simp

/-- A word with a line break behind it. -/
theorem gives_of_word_line (hc : (c.past w).rest = '\n' :: (pad m ++ rest)) (hrest : Marked rest)
    (hspare : Spare (c.past w) candidate)
    (hgives : Gives (on (c.past (w ++ ['\n'] ++ pad m)) i is true tokens none) ts) :
    Gives (on (c.past w) i is keyAllowed tokens candidate) ts := by
  apply gives_of_line hc hrest hspare
  rwa [← Cursor.past_append, ← List.singleton_append, ← List.append_assoc]

/-- **A leaf at the end of a line gives its tokens.** -/
theorem gives_of_leaf_line (h : LeafForm n w new) (hn : n = i.toNat + 2)
    (hc : c.rest = Value.endLine w ++ (pad m ++ rest)) (hrest : Continues i m rest)
    (hcolumn : i < c.column)
    (hfresh : Fresh c candidate) (hspare : Spare c candidate)
    (hcandidate : keyAllowed = true → candidate = none)
    (hgives : Gives (on (c.past (Value.endLine w ++ pad m)) i is true (new.reverse ++ tokens) none)
      ts) :
    Gives (on c i is keyAllowed tokens candidate) ts := by
  cases h with
  | plain fits =>
    have hline : Value.endLine w = w ++ ['\n'] := by
      apply endLine_of_getLast
      cases hlast : w.getLast? with
      | none => rfl
      | some d => exact (fits.fluent.printable d (List.mem_of_getLast? hlast)).2
    rw [hline, List.append_assoc] at hc hgives
    exact gives_of_plain_line fits hc hrest.marked (hrest.shallow.imp_left And.left) hcolumn hfresh
      hcandidate
      hspare hgives
  | @quoted cs written double quoted =>
    have hline : Value.endLine (quote double :: written ++ [quote double]) =
        quote double :: written ++ [quote double] ++ ['\n'] := by
      apply endLine_of_getLast
      rw [List.getLast?_concat]
      cases double <;> rfl
    have hword : c.rest = quote double ::
        (written ++ quote double :: ('\n' :: (pad m ++ rest))) := by
      rw [hc, hline]
      simp
    rw [hline] at hgives
    refine gives_of_quoted quoted hword (fun _ => by simp) (by omega) hfresh hcandidate ?_
    refine gives_of_word_line (Cursor.rest_past_of (by rw [hword]; simp)) hrest.marked ?_ hgives
    exact (spare_begun hcolumn hspare).past _
  | literal ne_nil printable indented =>
    obtain ⟨hline, hm⟩ := hrest.lineAt hn
    rw [endLine_literal ne_nil, List.append_assoc] at hc hgives
    exact gives_of_literal hn ne_nil printable hline hm hc hcolumn hfresh hspare hgives
  | empty mapping =>
    have hline : Value.endLine [opener mapping, closer mapping] =
        [opener mapping, closer mapping] ++ ['\n'] := by
      cases mapping <;> rfl
    have hword : c.rest = opener mapping :: closer mapping :: '\n' :: (pad m ++ rest) := by
      rw [hc, hline]
      rfl
    have hbegun : Spare c (begun c i keyAllowed tokens candidate) := spare_begun hcolumn hspare
    rw [hline] at hgives
    refine gives_of_empty mapping hword (by omega) hfresh hcandidate ?_ ?_
    · intro k hk hrequired
      rw [(hbegun k hk).1] at hrequired
      cases hrequired
    · refine gives_of_word_line (Cursor.rest_past_of hword) hrest.marked ?_ hgives
      apply Spare.past
      intro k hk
      exact hbegun k (Option.mem_filter_iff.1 hk).1

/-- **A leaf before a colon gives its tokens.** -/
theorem gives_of_leaf_key (h : LeafForm 0 w new) (hc : c.rest = w ++ ':' :: rest)
    (hgap : isGap rest.head? = true)
    (hcolumn : i ≤ c.column) (hcandidate : keyAllowed = true → candidate = none)
    (hfresh : Fresh c candidate)
    (hnear : Fresh (c.skip 1) (begun c i keyAllowed tokens candidate))
    (hgives : Gives (on (c.past w) i is false (new.reverse ++ tokens)
      (begun c i keyAllowed tokens candidate)) ts) :
    Gives (on c i is keyAllowed tokens candidate) ts := by
  cases h with
  | plain fits => exact gives_of_plain_key fits hc hgap hcolumn hfresh hcandidate hgives
  | @quoted cs written double quoted =>
    have hword : c.rest = quote double :: (written ++ quote double :: ':' :: rest) := by
      rw [hc]
      simp
    exact gives_of_quoted quoted hword (fun _ => by simp) hcolumn hfresh hcandidate hgives
  | literal ne_nil printable indented => cases indented
  | empty mapping =>
    have hkept : (begun c i keyAllowed tokens candidate).filter (!outdated (c.skip 1) ·) =
        begun c i keyAllowed tokens candidate := by
      cases hbegun : begun c i keyAllowed tokens candidate with
      | none => rfl
      | some k =>
        have hk := hnear k hbegun
        simp [Option.filter, hk]
    refine gives_of_empty mapping hc hcolumn hfresh hcandidate (fun k hk _ => hnear k hk) ?_
    rw [hkept]
    exact hgives

end Lexer

end TestOrchestrator.Yaml
