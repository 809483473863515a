import TestOrchestrator.Proofs.ReadBack.Encoding
import TestOrchestrator.Proofs.ReadBack.Words
import TestOrchestrator.Yaml.Value.Printer
/-!
# Tags

* `Token.tagBytes?_eq` reads the characters of a tag, those written as numbers too.
* `Token.tag?_eq`: what is written for the name of a tag is read as `Token.ofTag name`, provided
  that the name has no character which cannot stand in a tag outside of brackets.
* `Lexer.gives_of_tag` reads a tag before a value.
-/

namespace TestOrchestrator.Yaml

namespace Token

open Quoting Text.Utf8

variable {c : Cursor} {b : UInt8} {bs : List UInt8} {rest : List Char}

/-- A byte written as a number. -/
def percent (b : UInt8) : List Char := '%' :: hex 2 b.toNat

theorem length_percent (b : UInt8) : (percent b).length = 3 := by
  rw [percent, List.length_cons, length_hex (by decide) b.toNat_lt]

theorem any_isBreak_percent (b : UInt8) : (percent b).any isBreak = false := by
  rw [percent, List.any_cons, any_isBreak_hex]
  rfl

theorem percentByte?_eq (hc : c.rest = percent b ++ rest) :
    percentByte? c = some (b, c.past (percent b)) := by
  have hnumber : Scalar.hexNumber? (hex 2 b.toNat) = some b.toNat :=
    Scalar.hexNumber?_zeros _ (Scalar.hexNumber?_toDigits _)
  have hlength : (hex 2 b.toNat).length = 2 := length_hex (by decide) b.toNat_lt
  have hpast : c.past (percent b) = c.skip 3 := by
    rw [Cursor.past_eq_skip (any_isBreak_percent b), length_percent]
  obtain ⟨x, y, hxy⟩ : ∃ x y, hex 2 b.toNat = [x, y] := List.length_eq_two.1 hlength
  have hrest : c.rest = '%' :: x :: y :: rest := by
    rw [hc, percent, hxy]
    rfl
  rw [hxy] at hnumber
  obtain ⟨ds, hds, hvalue⟩ := Option.map_eq_some_iff.1 hnumber
  cases forall₂_of_mapM hds with
  | @cons _ m _ _ hm htail =>
    cases htail with
    | @cons _ n _ _ hn htail =>
      cases htail
      have hbyte : UInt8.ofNat (m * 16 + n) = b := by
        have hsum : m * 16 + n = b.toNat := by simpa using hvalue
        rw [hsum, UInt8.ofNat_toNat]
      rw [percentByte?, hrest, hpast, ← hbyte]
      simp [hm, hn]

/-! ## Characters by their bytes -/

/-- Bytes written as numbers. -/
def percents (bs : List UInt8) : List Char := bs.flatMap percent

theorem percentTail?_eq (hbs : ∀ b ∈ bs, 0x80 ≤ b.toNat ∧ b.toNat < 0xC0)
    (hc : c.rest = percents bs ++ rest) :
    percentTail? bs.length c = some (bs, c.past (percents bs)) := by
  induction bs generalizing c with
  | nil => rfl
  | cons b bs ih =>
    obtain ⟨hb, hbs⟩ := List.forall_mem_cons.1 hbs
    rw [percents, List.flatMap_cons, ← percents, List.append_assoc] at hc
    have htail : (b < 0x80 || 0xC0 ≤ b) = false := by
      simp only [UInt8.lt_iff_toNat_lt, UInt8.le_iff_toNat_le, UInt8.reduceToNat,
        Bool.or_eq_false_iff, decide_eq_false_iff_not]
      omega
    rw [List.length_cons, percentTail?, percentByte?_eq hc]
    simp only [Option.bind_eq_bind, Option.bind_some, htail, Bool.false_eq_true, if_false,
      ih hbs (Cursor.rest_past_of hc)]
    rw [← Cursor.past_append]
    rfl

theorem exists_tailLength (d : Char) : ∃ a bs, String.utf8EncodeChar d = a :: bs ∧
    tailLength? a = some bs.length ∧ ∀ b ∈ bs, 0x80 ≤ b.toNat ∧ b.toNat < 0xC0 := by
  have henc := encodedAs d
  generalize String.utf8EncodeChar d = cs at henc
  cases henc with
  | @one a small first =>
    refine ⟨a, [], rfl, ?_, nofun⟩
    simp only [tailLength?, UInt8.lt_iff_toNat_lt, UInt8.reduceToNat]
    rw [if_pos (by omega)]
    rfl
  | @two a b range first second =>
    refine ⟨a, [b], rfl, ?_, ?_⟩
    · simp only [tailLength?, UInt8.lt_iff_toNat_lt, UInt8.reduceToNat]
      rw [if_neg (by omega), if_neg (by omega), if_pos (by omega)]
      rfl
    · simp only [List.mem_singleton, forall_eq]
      omega
  | @three a b c range first second third =>
    refine ⟨a, [b, c], rfl, ?_, ?_⟩
    · simp only [tailLength?, UInt8.lt_iff_toNat_lt, UInt8.reduceToNat]
      rw [if_neg (by omega), if_neg (by omega), if_neg (by omega), if_pos (by omega)]
      rfl
    · simp only [List.mem_cons, List.not_mem_nil, or_false, forall_eq_or_imp, forall_eq]
      omega
  | @four a b c e range first second third fourth =>
    refine ⟨a, [b, c, e], rfl, ?_, ?_⟩
    · simp only [tailLength?, UInt8.lt_iff_toNat_lt, UInt8.reduceToNat]
      rw [if_neg (by omega), if_neg (by omega), if_neg (by omega), if_neg (by omega),
        if_pos (by omega)]
      rfl
    · simp only [List.mem_cons, List.not_mem_nil, or_false, forall_eq_or_imp, forall_eq]
      omega

/-- A character is read from its bytes by number. -/
theorem percentChar?_eq (d : Char) (hc : c.rest = percents (String.utf8EncodeChar d) ++ rest) :
    percentChar? c = some (String.utf8EncodeChar d,
      c.past (percents (String.utf8EncodeChar d))) := by
  obtain ⟨a, bs, henc, hlength, hbs⟩ := exists_tailLength d
  rw [henc] at hc ⊢
  rw [percents, List.flatMap_cons, ← percents, List.append_assoc] at hc
  rw [percentChar?, percentByte?_eq hc]
  simp only [Option.bind_eq_bind, Option.bind_some, hlength,
    percentTail?_eq hbs (Cursor.rest_past_of hc)]
  rw [← Cursor.past_append]
  rfl

/-! ## The characters of a tag -/

open Value

variable {cs : List Char} {wide : Bool}

theorem mem_of_isGap {d : Char} (h : isGap (some d) = true) :
    d ∈ [' ', '\t', '\n', '\r', Char.ofNat 0x85, Char.ofNat 0x2028, Char.ofNat 0x2029] := by
  have hof : ∀ n, d.toNat = n → d = Char.ofNat n := fun n hn => by rw [← hn, Char.ofNat_toNat]
  simp only [isGap, isSpace, isBreak, Bool.or_eq_true, decide_eq_true_eq] at h
  simp only [List.mem_cons, List.not_mem_nil, or_false]
  rcases h with (rfl | rfl) | (((rfl | rfl) | h) | h) | h
  iterate 4 simp
  all_goals simp [hof _ h]

theorem isTagChar_of_isGap {d : Char} (h : isGap (some d) = true) (wide : Bool) :
    d ≠ '%' ∧ isTagChar wide d = false ∧ isTagSafe d = false := by
  have hmem := mem_of_isGap h
  simp only [List.mem_cons, List.not_mem_nil, or_false] at hmem
  rcases hmem with rfl | rfl | rfl | rfl | rfl | rfl | rfl
  all_goals cases wide <;> decide

theorem isBreak_of_isTagSafe {d : Char} (h : isTagSafe d = true) : isBreak d = false := by
  by_contra hbreak
  have hgap : isGap (some d) = true := by
    rw [isGap, Bool.or_eq_true]
    exact .inr (by simpa using hbreak)
  rw [(isTagChar_of_isGap hgap true).2.2] at h
  cases h

theorem tagText_cons (d : Char) (cs : List Char) :
    tagText (d :: cs) = (if isTagSafe d then [d] else percents (String.utf8EncodeChar d)) ++
      tagText cs := by
  rw [tagText, List.flatMap_cons, ← tagText]
  simp only [encode, List.flatMap_singleton]
  rfl

theorem exists_percents (d : Char) (rest : List Char) :
    ∃ ds, percents (String.utf8EncodeChar d) ++ rest = '%' :: ds := by
  obtain ⟨a, bs, henc, -⟩ := exists_tailLength d
  rw [henc]
  exact ⟨_, rfl⟩

/-- The characters of a tag are read up to one that cannot be in a tag. -/
theorem tagBytes?_eq {fuel : Nat} {bytes : List UInt8}
    (hcs : ∀ d ∈ cs, isTagSafe d = true → isTagChar wide d = true)
    (hend : ∀ d ∈ rest.head?, d ≠ '%' ∧ isTagChar wide d = false) (hc : c.rest = tagText cs ++ rest)
    (hfuel : cs.length < fuel) :
    tagBytes? wide fuel bytes c = some (bytes ++ encode cs, c.past (tagText cs)) := by
  induction cs generalizing c bytes fuel with
  | nil =>
    obtain ⟨fuel, rfl⟩ : ∃ k, fuel = k + 1 := ⟨fuel - 1, by omega⟩
    have hc' : c.rest = rest := hc
    rw [tagBytes?, Cursor.head, hc']
    cases rest with
    | nil => simp [encode, tagText]
    | cons d ds =>
      obtain ⟨hpercent, hchar⟩ := hend d rfl
      simp [hpercent, hchar, encode, tagText]
  | cons d cs ih =>
    rw [List.length_cons] at hfuel
    obtain ⟨fuel, rfl⟩ : ∃ k, fuel = k + 1 := ⟨fuel - 1, by omega⟩
    obtain ⟨hd, hcs⟩ := List.forall_mem_cons.1 hcs
    have hbytes : bytes ++ encode (d :: cs) = bytes ++ String.utf8EncodeChar d ++ encode cs := by
      simp [encode]
    rw [tagText_cons, List.append_assoc] at hc
    rw [tagText_cons, Cursor.past_append, hbytes, tagBytes?, Cursor.head]
    cases hsafe : isTagSafe d with
    | true =>
      have hpercent : d ≠ '%' := by
        rintro rfl
        revert hsafe
        decide
      have hbreak : isBreak d = false := isBreak_of_isTagSafe hsafe
      simp only [hsafe, if_true, List.singleton_append] at hc
      have hpast : c.past [d] = c.skip 1 := Cursor.past_eq_skip (by simp [hbreak])
      have hnext : (c.skip 1).rest = tagText cs ++ rest := by simp [Cursor.skip, hc]
      have hencode : encode [d] = String.utf8EncodeChar d := by simp [encode]
      simp only [hc, List.head?_cons, hpercent, hd hsafe, if_true, if_false, hpast, hencode]
      exact ih hcs hnext (by omega)
    | false =>
      simp only [hsafe, Bool.false_eq_true, if_false] at hc ⊢
      have hread := percentChar?_eq d hc
      obtain ⟨ds, hds⟩ := exists_percents d (tagText cs ++ rest)
      have hhead : c.rest.head? = some '%' := by rw [hc, hds, List.head?_cons]
      simp only [hhead, if_true, hread]
      exact ih hcs (Cursor.rest_past_of hc) (by omega)

/-! ## Tags -/

/-- The name of a tag without an exclamation mark in front. -/
def tagName (name : String) : List Char :=
  match name.toList with
  | '!' :: cs => cs
  | cs => cs

/-- The bytes that are read for a tag behind its exclamation mark. -/
def tagSuffix (name : String) : List UInt8 := (encode (tagName name)).takeWhile (· ≠ 0)

/-- The token of a tag. -/
def ofTag (name : String) : Token :=
  if tagSuffix name = [] then .tag [] (encode ['!']) else .tag ['!'] (tagSuffix name)

/-- What the text of a tag begins with. -/
theorem head_tagText {e : Char} (hgap : isGap rest.head? = true)
    (he : (tagText cs ++ rest).head? = some e) :
    (cs.head? = some e ∧ isTagSafe e = true) ∨ e = '%' ∨ isGap (some e) = true := by
  cases cs with
  | nil =>
    have he' : rest.head? = some e := he
    exact .inr (.inr (he' ▸ hgap))
  | cons d cs =>
    rw [tagText_cons, List.append_assoc] at he
    cases hsafe : isTagSafe d with
    | true =>
      simp only [hsafe, if_true, List.singleton_append, List.head?_cons, Option.some.injEq] at he
      subst he
      exact .inl ⟨rfl, hsafe⟩
    | false =>
      obtain ⟨ds, hds⟩ := exists_percents d (tagText cs ++ rest)
      simp only [hsafe, Bool.false_eq_true, if_false, hds, List.head?_cons, Option.some.injEq] at he
      exact .inr (.inl he.symm)

theorem length_le_tagText (cs : List Char) : cs.length ≤ (tagText cs).length := by
  induction cs with
  | nil => exact Nat.le_refl 0
  | cons d cs ih =>
    rw [tagText_cons, List.length_append, List.length_cons]
    split
    · rw [List.length_singleton]
      omega
    · obtain ⟨ds, hds⟩ := exists_percents d []
      rw [List.append_nil] at hds
      rw [hds, List.length_cons]
      omega

theorem tagText_words {w : List Char} (hw : ∀ d ∈ w, isWord d = true) (cs : List Char) :
    tagText (w ++ cs) = w ++ tagText cs := by
  induction w with
  | nil => rfl
  | cons d w ih =>
    obtain ⟨hd, hw⟩ := List.forall_mem_cons.1 hw
    have hsafe : isTagSafe d = true := by simp [isTagSafe, hd]
    rw [List.cons_append, tagText_cons, if_pos hsafe, ih hw]
    rfl

theorem handle_eq {w : List Char} (hw : ∀ d ∈ w, isWord d = true)
    (hcs : ∀ d ∈ cs.head?, isWord d = false)
    (hgap : isGap rest.head? = true) (hc : c.rest = '!' :: (w ++ (tagText cs ++ rest))) :
    handle c = ('!' :: w, c.past ('!' :: w)) := by
  have hnext : (c.skip 1).rest = w ++ (tagText cs ++ rest) := by simp [Cursor.skip, hc]
  have hhead : ∀ e ∈ (tagText cs ++ rest).head?, isWord e = false ∧ e ≠ '!' := by
    intro e he
    rcases head_tagText hgap he with ⟨hfirst, hsafe⟩ | rfl | hspace
    · refine ⟨hcs e hfirst, ?_⟩
      rintro rfl
      revert hsafe
      decide
    · decide
    · have hmem := mem_of_isGap hspace
      simp only [List.mem_cons, List.not_mem_nil, or_false] at hmem
      rcases hmem with rfl | rfl | rfl | rfl | rfl | rfl | rfl
      all_goals decide
  have hword : (c.skip 1).takeWhile isWord = w := by
    rw [Cursor.takeWhile, hnext, List.takeWhile_append_of_pos hw]
    cases hrest : tagText cs ++ rest with
    | nil => simp
    | cons e ds =>
      have he := (hhead e (by rw [hrest]; rfl)).1
      simp [he]
  have hline : ('!' :: w).any isBreak = false := by
    have hsafe : ∀ d ∈ w, isTagSafe d = true := fun d hd => by simp [isTagSafe, hw d hd]
    rw [List.any_cons, List.any_eq_false.2 fun d hd => by simp [isBreak_of_isTagSafe (hsafe d hd)]]
    rfl
  have hpast : c.past ('!' :: w) = c.skip (1 + w.length) := by
    rw [Cursor.past_eq_skip hline, List.length_cons, Nat.add_comm]
  have hbehind : (c.past ('!' :: w)).rest = tagText cs ++ rest := Cursor.rest_past_of hc
  have hmark : (c.past ('!' :: w)).startsWith '!' = false := by
    apply decide_eq_false
    rw [hbehind]
    intro hbang
    exact (hhead '!' hbang).2 rfl
  rw [handle]
  simp only [hword, ← hpast, hmark, Bool.false_eq_true, if_false]

/-- A name whose characters can stand in a tag outside of brackets. -/
def PlainName (name : String) : Prop := ∀ d ∈ name.toList, d ≠ ',' ∧ d ≠ '[' ∧ d ≠ ']'

theorem isTagChar_of_isTagSafe {d : Char} (hsafe : isTagSafe d = true)
    (hd : d ≠ ',' ∧ d ≠ '[' ∧ d ≠ ']') :
    isTagChar false d = true := by
  rw [isTagSafe, Bool.or_eq_true, List.contains_iff_mem] at hsafe
  rcases hsafe with hword | hmem
  · rw [isTagChar, hword, Bool.true_or, Bool.true_or]
  · simp only [List.mem_cons, List.not_mem_nil, or_false] at hmem
    rcases hmem with rfl | rfl | rfl | rfl | rfl | rfl | rfl | rfl | rfl | rfl | rfl | rfl | rfl |
      rfl | rfl | rfl | rfl | rfl
    all_goals first | rfl | simp at hd

theorem mem_of_mem_tagName {name : String} {d : Char} (h : d ∈ tagName name) : d ∈ name.toList := by
  unfold tagName at h
  split at h
  · rename_i cs hname
    rw [hname]
    exact List.mem_cons_of_mem _ h
  · exact h

theorem not_isTagChar_of_gap (hgap : isGap rest.head? = true) (wide : Bool) :
    ∀ d ∈ rest.head?, d ≠ '%' ∧ isTagChar wide d = false := by
  intro d hd
  have hspace : isGap (some d) = true := by rwa [← Option.mem_def.1 hd]
  exact ⟨(isTagChar_of_isGap hspace wide).1, (isTagChar_of_isGap hspace wide).2.1⟩

theorem tag?_of_name {name : String} (hname : PlainName name) (hgap : isGap rest.head? = true)
    (hc : c.rest = '!' :: (tagText (tagName name) ++ rest)) :
    tag? false c = some (ofTag name, c.past ('!' :: tagText (tagName name))) := by
  obtain ⟨w, cs, hcs, hw, hhead⟩ := exists_span isWord (tagName name)
  have hplain : ∀ d ∈ cs, isTagSafe d = true → isTagChar false d = true := by
    intro d hd hsafe
    apply isTagChar_of_isTagSafe hsafe
    apply hname
    apply mem_of_mem_tagName
    rw [hcs]
    exact List.mem_append_right _ hd
  have hnext : c.peek 1 ≠ some '<' := by
    rw [Cursor.peek, hc, List.getElem?_cons_succ, ← List.head?_eq_getElem?]
    intro hopen
    rcases head_tagText hgap hopen with ⟨-, hsafe⟩ | hpercent | hspace
    · revert hsafe
      decide
    · cases hpercent
    · revert hspace
      decide
  rw [hcs, tagText_words hw, List.append_assoc] at hc
  have hhandle := handle_eq hw hhead hgap hc
  have hbehind : (c.past ('!' :: w)).rest = tagText cs ++ rest := Cursor.rest_past_of hc
  have hlength : cs.length < (c.past ('!' :: w)).rest.length + 1 := by
    rw [hbehind, List.length_append]
    have hshort := length_le_tagText cs
    omega
  have hbytes : tagBytes? false ((c.past ('!' :: w)).rest.length + 1) [] (c.past ('!' :: w)) =
      some ([] ++ encode cs, (c.past ('!' :: w)).past (tagText cs)) :=
    tagBytes?_eq hplain (not_isTagChar_of_gap hgap false) hbehind hlength
  have hlast : (decide (1 < ('!' :: w).length) && decide (('!' :: w).getLast? = some '!')) =
      false := by
    cases w with
    | nil => rfl
    | cons d w =>
      rw [List.getLast?_cons_cons, Bool.and_eq_false_iff]
      refine .inr (decide_eq_false fun hbang => ?_)
      have hbang' := hw '!' (List.mem_of_getLast? hbang)
      revert hbang'
      decide
  have hend : isGap ((c.past ('!' :: w)).past (tagText cs)).head = true := by
    rw [Cursor.head, Cursor.rest_past_of hbehind]
    exact hgap
  rw [tag?, if_neg hnext, hhandle]
  simp only [hlast, hbytes, Bool.false_eq_true, if_false, Option.bind_eq_bind, Option.bind_some]
  rw [List.drop_succ_cons, List.drop_zero, List.nil_append, ← encode_append, ← hcs, hend]
  simp only [Bool.true_or, if_true]
  rw [ofTag, tagSuffix, hcs, tagText_words hw, ← List.cons_append, Cursor.past_append]

theorem tagMark_eq {name : String} (h : name.toList ≠ ['!']) :
    tagMark name = '!' :: tagText (tagName name) := by
  unfold tagMark tagName
  split
  · contradiction
  · rename_i hname
    simp only [hname]
  · rename_i cs hlone hbang
    split
    · rename_i ds hname
      exact absurd hname (hbang ds)
    · rfl

/-- The tag that is an exclamation mark and nothing else. -/
theorem tag?_lone (hgap : isGap rest.head? = true)
    (hc : c.rest = '!' :: '<' :: (tagText ['!'] ++ '>' :: rest)) :
    tag? false c = some (.tag [] (encode ['!']),
      c.past ('!' :: '<' :: (tagText ['!'] ++ ['>']))) := by
  have hnext : c.peek 1 = some '<' := by simp [Cursor.peek, hc]
  have hinside : (c.skip 2).rest = tagText ['!'] ++ '>' :: rest := by simp [Cursor.skip, hc]
  have hbytes : tagBytes? true ((c.skip 2).rest.length + 1) [] (c.skip 2) =
      some ([] ++ encode ['!'], (c.skip 2).past (tagText ['!'])) := by
    apply tagBytes?_eq _ _ hinside
    · rw [hinside, List.length_append]
      exact Nat.lt_succ_of_le (Nat.le_trans (length_le_tagText ['!']) (Nat.le_add_right ..))
    · exact List.forall_mem_singleton.2 fun _ => rfl
    · intro d hd
      cases hd
      decide
  have htext : tagText? true (c.skip 2) = some (encode ['!'], (c.skip 2).past (tagText ['!'])) := by
    rw [tagText?, hbytes]
    rfl
  have hbehind : ((c.skip 2).past (tagText ['!'])).rest = '>' :: rest := Cursor.rest_past_of hinside
  have hclose : ((c.skip 2).past (tagText ['!'])).startsWith '>' = true := by
    simp [Cursor.startsWith, hbehind]
  have hend : isGap (((c.skip 2).past (tagText ['!'])).skip 1).head = true := by
    rw [Cursor.head, Cursor.skip, hbehind]
    exact hgap
  have hpast : c.past ('!' :: '<' :: (tagText ['!'] ++ ['>'])) =
      ((c.skip 2).past (tagText ['!'])).skip 1 := by
    rw [show '!' :: '<' :: (tagText ['!'] ++ ['>']) =
      ['!', '<'] ++ (tagText ['!'] ++ ['>']) from rfl,
      Cursor.past_append, Cursor.past_append,
      Cursor.past_eq_skip (show ['!', '<'].any isBreak = false from rfl)]
    rfl
  rw [tag?, if_pos hnext, htext, hpast]
  simp only [hclose, if_true, Option.bind_eq_bind, Option.bind_some, hend, Bool.true_or]

/-- **A tag is read by its name.** -/
theorem tag?_eq {name : String} (hname : PlainName name) (hgap : isGap rest.head? = true)
    (hc : c.rest = tagMark name ++ rest) : tag? false c =
      some (ofTag name, c.past (tagMark name)) := by
  by_cases hlone : name.toList = ['!']
  · have hmark : tagMark name = '!' :: '<' :: (tagText ['!'] ++ ['>']) := by
      simp [tagMark, hlone]
    have htag : ofTag name = .tag [] (encode ['!']) := by
      simp [ofTag, tagSuffix, tagName, hlone, encode]
    rw [hmark] at hc ⊢
    rw [htag]
    exact tag?_lone hgap (by simpa using hc)
  · rw [tagMark_eq hlone] at hc ⊢
    exact tag?_of_name hname hgap hc

end Token

namespace Lexer

variable {c : Cursor} {i : Int} {is : List Int} {keyAllowed : Bool} {tokens ts : List Token}
  {candidate : Option Candidate} {rest : List Char} {name : String}

theorem exists_tagMark (name : String) (rest : List Char) :
    ∃ ds, Value.tagMark name ++ rest = '!' :: ds := by
  unfold Value.tagMark
  split <;> exact ⟨_, rfl⟩

theorem marked_tagMark (name : String) (rest : List Char) :
    Marked (Value.tagMark name ++ rest) := by
  obtain ⟨ds, hds⟩ := exists_tagMark name rest
  rw [hds]
  intro e he
  cases he
  decide

/-- A tag with a gap behind it. -/
theorem gives_of_tag (hname : Token.PlainName name) (hgap : isGap rest.head? = true)
    (hc : c.rest = Value.tagMark name ++ rest) (hcolumn : i ≤ c.column) (hfresh : Fresh c candidate)
    (hcandidate : keyAllowed = true → candidate = none)
    (hgives : Gives (on (c.past (Value.tagMark name)) i is false (.ofTag name :: tokens)
      (begun c i keyAllowed tokens candidate)) ts) :
    Gives (on c i is keyAllowed tokens candidate) ts := by
  obtain ⟨ds, hds⟩ := exists_tagMark name rest
  have hrest : c.rest = '!' :: ds := by rw [hc, hds]
  have hmarked : Marked c.rest := hc ▸ marked_tagMark name rest
  have hdash : c.atDocumentMark '-' = false := atDocumentMark_of_head (by rw [hrest]; simp)
  have hdot : c.atDocumentMark '.' = false := atDocumentMark_of_head (by rw [hrest]; simp)
  have hbegin : (on c i is keyAllowed tokens candidate).begin? '!' =
      some (on (c.past (Value.tagMark name)) i is false (.ofTag name :: tokens)
        (begun c i keyAllowed tokens candidate)) := by
    have htag : (on c i is keyAllowed tokens candidate).begin? '!' =
        (on c i is keyAllowed tokens candidate).tag? := by
      simp [begin?, hdash, hdot]
    rw [htag, Lexer.tag?, inFlow_on, cursor_on, Token.tag?_eq hname hgap hc]
    exact word?_on hcandidate
  refine gives_of_begin hmarked (by simp [Cursor.head, hrest]) hcolumn hfresh hbegin ?_ hgives
  rw [cursor_on, Cursor.rest_past_of hc, hc, List.length_append]
  obtain ⟨es, hes⟩ := exists_tagMark name []
  rw [List.append_nil] at hes
  rw [hes, List.length_cons]
  omega

end Lexer

end TestOrchestrator.Yaml
