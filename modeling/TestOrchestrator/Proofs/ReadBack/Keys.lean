import TestOrchestrator.Proofs.ReadBack.Leaves
import TestOrchestrator.Proofs.ReadBack.Tags
/-!
# Keys on one line

* `Value.length_simpleKey`: a simple key has fewer than 1024 characters, so that it is still a
  candidate for a key where its colon comes.
* `Lexer.gives_of_key_open` and `Lexer.gives_of_key` read a simple key with its colon, where it
  opens a block and where the block is open already.
-/

namespace TestOrchestrator.Yaml

open Quoting Scalar Text.Utf8

/-! ## How long a key can be -/

variable {cs : List Char} {n : Nat}

theorem length_escaped (d : Char) : (escaped d).length ≤ 4 * (String.utf8EncodeChar d).length := by
  have hpos := length_encode_pos d
  obtain ⟨htwo, hfour⟩ := length_encode_gt (d := d)
  rcases escaped_cases d with ⟨hescaped, -⟩ | ⟨e, hescaped, -⟩ | ⟨e, k, hescaped, -, -, -, hk, hd⟩
  · rw [hescaped, List.length_singleton]
    omega
  · rw [hescaped, List.length_cons, List.length_singleton]
    omega
  · rw [hescaped, List.length_cons, List.length_cons, length_hex (by omega) hd]
    rcases hk with rfl | ⟨rfl, hbound⟩ | ⟨rfl, hbound⟩
    · omega
    · have hbytes := htwo (by omega)
      omega
    · have hbytes := hfour hbound
      omega

theorem length_flatMap_escaped (cs : List Char) :
    (cs.flatMap escaped).length ≤ 4 * (encode cs).length := by
  induction cs with
  | nil => exact Nat.le_refl 0
  | cons d cs ih =>
    have hd := length_escaped d
    rw [List.flatMap_cons, encode, List.flatMap_cons, ← encode, List.length_append,
      List.length_append]
    omega

theorem indented_zero (start : Bool) (cs : List Char) : indented 0 start cs = cs := by
  induction cs generalizing start with
  | nil => rfl
  | cons d cs ih =>
    rw [indented, ih, ih]
    cases start <;> simp [pad]

theorem length_single (cs : List Char) : (single 0 cs).length ≤ 2 * (encode cs).length + 2 := by
  have hdouble : ∀ cs : List Char, (cs.flatMap (within false)).length ≤ 2 * cs.length := by
    intro cs
    induction cs with
    | nil => exact Nat.le_refl 0
    | cons d cs ih =>
      have hd : (within false d).length ≤ 2 := by
        by_cases hquote : d = '\'' <;> simp [within, hquote]
      rw [List.flatMap_cons, List.length_append, List.length_cons]
      omega
  have hlength := hdouble cs
  have hbytes := length_le_encode cs
  have hend : (if cs.getLast?.any isBreak = true then pad 0 else []) = [] := by
    split <;> rfl
  rw [single_eq, lines, indented_zero, hend, List.append_nil]
  simp only [List.length_cons, List.length_append, List.length_nil]
  omega

theorem length_write (h : cs.any isBreak = false) :
    (write 0 cs).length ≤ 4 * (encode cs).length + 2 := by
  have hbytes := length_le_encode cs
  rcases style_cases cs with ⟨hstyle, -⟩ | ⟨hstyle, -⟩ | hstyle | ⟨hstyle, hfeed, -⟩
  · rw [write, hstyle]
    simp only
    omega
  · have hlength := length_single cs
    rw [write, hstyle]
    simp only
    omega
  · have hlength := length_flatMap_escaped cs
    rw [write, hstyle]
    simp only [double, List.length_cons, List.length_append, List.length_nil]
    omega
  · rw [List.any_eq_false] at h
    exact absurd rfl (h '\n' hfeed)

namespace Value

/-- What a simple key says about the text of its leaf. -/
theorem leafFits_cases {v : Value} {size : Nat} (h : isSimpleKey.leafFits v size = true) :
    v.isLeaf = true ∧ (leafText v).any isBreak = false ∧
      size + (encode (leafText v)).length ≤ 128 := by
  cases v with
  | null | bool | int | float | str =>
    simp only [isSimpleKey.leafFits, Bool.and_eq_true, Bool.not_eq_true', decide_eq_true_eq] at h
    exact ⟨rfl, h⟩
  | seq items =>
    simp only [isSimpleKey.leafFits, Bool.and_eq_true, List.isEmpty_iff, decide_eq_true_eq] at h
    obtain ⟨rfl, hsize⟩ := h
    exact ⟨rfl, rfl, hsize⟩
  | map entries =>
    simp only [isSimpleKey.leafFits, Bool.and_eq_true, List.isEmpty_iff, decide_eq_true_eq] at h
    obtain ⟨rfl, hsize⟩ := h
    exact ⟨rfl, rfl, hsize⟩
  | tagged => cases h

theorem length_leaf {v : Value} (h : v.isLeaf = true) (hline : (leafText v).any isBreak = false) :
    (leaf 0 v).length ≤ 4 * (encode (leafText v)).length + 2 := by
  have hbytes := length_le_encode (leafText v)
  cases v with
  | null | bool | int | float =>
    rw [leaf]
    · omega
    all_goals exact nofun
  | str s => exact length_write hline
  | seq | map => exact Nat.le_add_left ..
  | tagged => cases h

theorem length_tagText (cs : List Char) : (tagText cs).length ≤ 3 * (encode cs).length := by
  induction cs with
  | nil => exact Nat.le_refl 0
  | cons d cs ih =>
    have hd := length_encode_pos d
    have hpercents : (Token.percents (String.utf8EncodeChar d)).length =
        3 * (String.utf8EncodeChar d).length := by
      rw [Token.percents, List.length_flatMap, List.map_congr_left fun b _ =>
        Token.length_percent b]
      simp [Nat.mul_comm]
    rw [Token.tagText_cons, encode, List.flatMap_cons, ← encode, List.length_append,
      List.length_append]
    split
    · rw [List.length_singleton]
      omega
    · omega

theorem length_tagMark (name : String) : (tagMark name).length ≤ 3 * tagSize name + 3 := by
  unfold tagMark tagSize
  split
  · decide
  · rename_i cs _ hname
    have hlength := length_tagText cs
    simp only [List.length_cons]
    omega
  · have hlength := length_tagText name.toList
    simp only [List.length_cons]
    omega

/-- A simple key is a leaf, with a tag or not. -/
theorem isSimpleKey_cases {k : Value} (h : isSimpleKey k = true) :
    (∃ name v, k = tagged name v ∧ isSimpleKey.leafFits v (tagSize name) = true) ∨
      (k.isLeaf = true ∧ simpleKey k = leaf 0 k ∧ isSimpleKey.leafFits k 0 = true) := by
  by_cases htag : ∃ name v, k = tagged name v
  · obtain ⟨name, v, rfl⟩ := htag
    exact .inl ⟨name, v, rfl, h⟩
  · have huntagged : isSimpleKey k = isSimpleKey.leafFits k 0 ∧ simpleKey k = leaf 0 k := by
      cases k with
      | tagged name v => exact absurd ⟨name, v, rfl⟩ htag
      | null | bool | int | float | str | seq | map => exact ⟨rfl, rfl⟩
    rw [huntagged.1] at h
    exact .inr ⟨(leafFits_cases h).1, huntagged.2, h⟩

/-- **A simple key is short enough to be a key.** -/
theorem length_simpleKey {k : Value} (h : isSimpleKey k = true) : (simpleKey k).length < 1024 := by
  rcases isSimpleKey_cases h with ⟨name, v, rfl, hfits⟩ | ⟨-, hkey, hfits⟩
  · obtain ⟨hleaf, hline, hsize⟩ := leafFits_cases hfits
    have hv := length_leaf hleaf hline
    have htag := length_tagMark name
    simp only [simpleKey, List.length_append, List.length_cons]
    omega
  · obtain ⟨hleaf, hline, hsize⟩ := leafFits_cases hfits
    have hk := length_leaf hleaf hline
    rw [hkey]
    omega

end Value

/-! ## Keys have no line breaks -/

theorem any_isBreak_escaped (d : Char) : (escaped d).any isBreak = false := by
  by_cases hspace : d = ' '
  · subst hspace
    decide
  · have hinside : InWord true d := ⟨hspace, nofun⟩
    exact any_isBreak_within hinside

theorem any_isBreak_write (h : cs.any isBreak = false) : (write 0 cs).any isBreak = false := by
  have hcs : ∀ d ∈ cs, isBreak d = false := fun d hd => by simpa using List.any_eq_false.1 h d hd
  rcases style_cases cs with ⟨hstyle, -⟩ | ⟨hstyle, -⟩ | hstyle | ⟨hstyle, hfeed, -⟩
  · rw [write, hstyle]
    exact h
  · have hlast : (if cs.getLast?.any isBreak = true then pad 0 else []) = [] := by
      split <;> rfl
    rw [write, hstyle]
    simp only [single_eq, lines, indented_zero, hlast, List.append_nil, List.any_append,
      List.any_cons, any_isBreak_flatMap hcs]
    rfl
  · have hinside : (cs.flatMap escaped).any isBreak = false := by
      rw [List.any_flatMap, List.any_eq_false]
      intro d hd
      simp [any_isBreak_escaped d]
    rw [write, hstyle]
    simp only [double, List.any_append, List.any_cons, hinside]
    rfl
  · exact absurd (hcs '\n' hfeed) (by decide)

namespace Value

theorem any_isBreak_leaf {v : Value} (h : v.isLeaf = true)
    (hline : (leafText v).any isBreak = false) :
    (leaf 0 v).any isBreak = false := by
  cases v with
  | null | bool | int | float =>
    rw [leaf]
    · exact hline
    all_goals exact nofun
  | str s => exact any_isBreak_write hline
  | seq | map => rfl
  | tagged => cases h

theorem any_isBreak_tagText (cs : List Char) : (tagText cs).any isBreak = false := by
  induction cs with
  | nil => rfl
  | cons d cs ih =>
    rw [Token.tagText_cons, List.any_append, ih, Bool.or_false]
    split
    · rename_i hsafe
      simp [Token.isBreak_of_isTagSafe hsafe]
    · rw [Token.percents, List.any_flatMap, List.any_eq_false]
      intro b hb
      simp [Token.any_isBreak_percent b]

theorem any_isBreak_tagMark (name : String) : (tagMark name).any isBreak = false := by
  have hmark : isBreak '!' = false := rfl
  have hopen : isBreak '<' = false := rfl
  have hclose : isBreak '>' = false := rfl
  unfold tagMark
  split <;> simp [any_isBreak_tagText, hmark, hopen, hclose]

theorem any_isBreak_simpleKey {k : Value} (h : isSimpleKey k = true) :
    (simpleKey k).any isBreak = false := by
  have hspace : isBreak ' ' = false := rfl
  rcases isSimpleKey_cases h with ⟨name, v, rfl, hfits⟩ | ⟨-, hkey, hfits⟩
  · obtain ⟨hleaf, hline, -⟩ := leafFits_cases hfits
    simp [simpleKey, any_isBreak_tagMark, any_isBreak_leaf hleaf hline, hspace]
  · obtain ⟨hleaf, hline, -⟩ := leafFits_cases hfits
    rw [hkey]
    exact any_isBreak_leaf hleaf hline

/-- The tokens of a leaf with a tag or not. -/
def keyTokens : Value → List Token
  | tagged name v => .ofTag name :: leafTokens v
  | v => leafTokens v

/-- Whether no tag of a leaf has characters that cannot stand in a tag outside of brackets. -/
def HasPlainTag : Value → Prop
  | tagged name _ => Token.PlainName name
  | _ => True

end Value

/-! ## Reading a key -/

namespace Lexer

open Value

variable {c : Cursor} {i : Int} {is : List Int} {tokens ts : List Token} {rest : List Char}
  {k : Value}

theorem marked_of_leafForm {w : List Char} {new : List Token} (h : LeafForm n w new)
    (rest : List Char) :
    Marked (w ++ rest) := by
  cases h with
  | plain fits => exact marked_of_fitsPlain fits rest
  | quoted double quoted =>
    intro e he
    cases he
    cases double <;> decide
  | literal ne_nil printable indented =>
    intro e he
    cases he
    decide
  | empty mapping =>
    intro e he
    cases he
    cases mapping <;> decide

theorem fresh_of_near {c' : Cursor} {required : Bool} {number : Nat} (hline : c.line = c'.line)
    (hnear : c'.index ≤ c.index + 1024) : Fresh c' (some ⟨required, number, c⟩) := by
  intro k hk
  cases hk
  simp [outdated, hline, hnear]

/-- A simple key up to the colon. -/
theorem gives_of_simpleKey (hkey : isSimpleKey k = true) (htag : k.HasPlainTag)
    (hc : c.rest = simpleKey k ++ ':' :: rest) (hgap : isGap rest.head? = true)
    (hcolumn : i ≤ c.column)
    (hgives : Gives (on (c.past (simpleKey k)) i is false (k.keyTokens.reverse ++ tokens)
      (some ⟨decide (i = c.column), tokens.length, c⟩)) ts) :
    Gives (on c i is true tokens none) ts := by
  have hlength := length_simpleKey hkey
  rcases isSimpleKey_cases hkey with ⟨name, v, rfl, hfits⟩ | ⟨-, hleafKey, hfits⟩
  · obtain ⟨hleaf, hline, hsize⟩ := leafFits_cases hfits
    have hform : LeafForm 0 (leaf 0 v) v.leafTokens := leafForm hleaf (.inr hline)
    simp only [simpleKey, List.length_append, List.length_cons] at hlength
    simp only [simpleKey, List.append_assoc, List.cons_append] at hc
    have htagged : c.past (tagMark name) = c.skip (tagMark name).length :=
      Cursor.past_eq_skip (any_isBreak_tagMark name)
    have hspaced : (c.past (tagMark name)).skip 1 = c.skip ((tagMark name).length + 1) := by
      rw [htagged, Cursor.skip_add]
    have hbehind : (c.past (tagMark name)).rest = ' ' :: (leaf 0 v ++ ':' :: rest) :=
      Cursor.rest_past_of hc
    have hnext : ((c.past (tagMark name)).skip 1).rest = leaf 0 v ++ ':' :: rest := by
      simp [Cursor.skip, hbehind]
    have hpast : c.past (simpleKey (tagged name v)) =
        ((c.past (tagMark name)).skip 1).past (leaf 0 v) := by
      rw [simpleKey, Cursor.past_append]
      rfl
    have hcolumn' : i ≤ ((c.past (tagMark name)).skip 1).column := by
      rw [hspaced]
      change i ≤ ((c.column + _ : Nat) : Int)
      omega
    refine gives_of_tag htag rfl hc hcolumn fresh_none (fun _ => rfl) ?_
    refine gives_of_space hbehind (marked_of_leafForm hform _) ?_
    refine gives_of_leaf_key hform hnext hgap hcolumn' (by rintro ⟨⟩) ?_ ?_ ?_
    · rw [hspaced]
      refine fresh_of_near rfl ?_
      change c.index + _ ≤ _
      omega
    · rw [hspaced, Cursor.skip_add]
      refine fresh_of_near rfl ?_
      change c.index + _ ≤ _
      omega
    · rw [hpast, keyTokens, List.reverse_cons, List.append_assoc] at hgives
      exact hgives
  · obtain ⟨hleaf, hline, hsize⟩ := leafFits_cases hfits
    have hform : LeafForm 0 (leaf 0 k) k.leafTokens := leafForm hleaf (.inr hline)
    have htokens : k.keyTokens = k.leafTokens := by
      cases k with
      | tagged => cases hleaf
      | null | bool | int | float | str | seq | map => rfl
    rw [hleafKey] at hc hgives
    rw [htokens] at hgives
    refine gives_of_leaf_key hform hc hgap hcolumn (fun _ => rfl) fresh_none ?_ hgives
    exact fresh_of_near rfl (by simp [Cursor.skip])

/-- The first key of a block, a simple one, and its colon. -/
theorem gives_of_key_open (hkey : isSimpleKey k = true) (htag : k.HasPlainTag)
    (hc : c.rest = simpleKey k ++ ':' :: rest) (hgap : isGap rest.head? = true)
    (hcolumn : i < c.column)
    (hgives : Gives (on (c.past (simpleKey k ++ [':'])) c.column (i :: is) false
      (.value :: (k.keyTokens.reverse ++ .key :: .blockMappingStart :: tokens)) none) ts) :
    Gives (on c i is true tokens none) ts := by
  have hlength := length_simpleKey hkey
  have hpast : c.past (simpleKey k) = c.skip (simpleKey k).length :=
    Cursor.past_eq_skip (any_isBreak_simpleKey hkey)
  have hcolon : (c.past (simpleKey k)).rest = ':' :: rest := Cursor.rest_past_of hc
  refine gives_of_simpleKey hkey htag hc hgap (by omega) ?_
  refine gives_of_colon_open hcolon hgap hcolumn ?_ (by rw [hpast]; rfl) ?_ ?_
  · rw [hpast]
    change i ≤ ((c.column + _ : Nat) : Int)
    omega
  · rw [hpast]
    change c.index + _ ≤ _
    omega
  · rwa [← Cursor.past_append]

/-- Another simple key of a block, and its colon. -/
theorem gives_of_key (hkey : isSimpleKey k = true) (htag : k.HasPlainTag)
    (hc : c.rest = simpleKey k ++ ':' :: rest) (hgap : isGap rest.head? = true)
    (hcolumn : i = c.column)
    (hgives : Gives (on (c.past (simpleKey k ++ [':'])) i is false
      (.value :: (k.keyTokens.reverse ++ .key :: tokens)) none) ts) :
    Gives (on c i is true tokens none) ts := by
  have hlength := length_simpleKey hkey
  have hpast : c.past (simpleKey k) = c.skip (simpleKey k).length :=
    Cursor.past_eq_skip (any_isBreak_simpleKey hkey)
  have hcolon : (c.past (simpleKey k)).rest = ':' :: rest := Cursor.rest_past_of hc
  refine gives_of_simpleKey hkey htag hc hgap (by omega) ?_
  refine gives_of_colon hcolon hgap hcolumn ?_ (by rw [hpast]; rfl) ?_ ?_
  · rw [hpast]
    change i ≤ ((c.column + _ : Nat) : Int)
    omega
  · rw [hpast]
    change c.index + _ ≤ _
    omega
  · rwa [← Cursor.past_append]

end Lexer

end TestOrchestrator.Yaml
