import TestOrchestrator.Proofs.ReadBack.Characters
/-!
# From a printed value to its tokens

* `Fits` and `Ready` say where a value may stand: in which columns its parts go, and how far the
  lexer is.
* `Lexer.Lexes v` says that the text of `v` is read as its tokens wherever it stands.
  `Lexer.lexes_of_readable` shows it by induction on the value, from the items of a sequence
  (`gives_of_items`) and the entries of a mapping (`gives_of_entries`).
* `Token.ofText?_print`: a whole printed value is read as its tokens.
-/

namespace TestOrchestrator.Yaml

open Quoting Value

/-! ## Places -/

/-- A place inside a block in column `i`: what is written there is deeper than the block, except for
a sequence where the place is `bare`. -/
structure Fits (i : Int) (k : Column) (bare bareTagged : Bool) : Prop where
  mapping : i < k.mapping
  sequence : if bare then i = k.sequence else i < k.sequence
  taggedSequence : if bareTagged then i = k.taggedSequence else i < k.taggedSequence
  scalar : k.scalar = i.toNat + 2

theorem fits_root : Fits (-1) .root false false := ⟨by decide, by decide, by decide, rfl⟩

theorem lt_add_two (n : Nat) : (n : Int) < ((n + 2 : Nat) : Int) := by omega

theorem fits_dash (n : Nat) : Fits n (.dash n) false false :=
  ⟨lt_add_two n, lt_add_two n, lt_add_two n, rfl⟩

theorem fits_mark (n : Nat) : Fits n (.mark n) false true := ⟨lt_add_two n, lt_add_two n, rfl, rfl⟩

theorem fits_value (n : Nat) : Fits n (.value n) true true := ⟨lt_add_two n, rfl, rfl, rfl⟩

theorem Fits.tagged {i : Int} {k : Column} {bare bareTagged : Bool} (h : Fits i k bare bareTagged) :
    Fits i k.tagged bareTagged bareTagged :=
  ⟨h.mapping, h.taggedSequence, h.taggedSequence, h.scalar⟩

namespace Lexer

variable {k : Column} {v : Value} {bare bareTagged : Bool} {c : Cursor} {i : Int} {is : List Int}
  {keyAllowed : Bool} {tokens ts : List Token} {candidate : Option Candidate} {rest : List Char}
  {m n : Nat}

/-- A lexer is where a value may begin: in the column of a block, deeper than the block around it
otherwise. -/
structure Ready (k : Column) (v : Value) (i : Int) (c : Cursor) (keyAllowed : Bool)
    (candidate : Option Candidate) : Prop where
  spare : Spare c candidate
  lone : keyAllowed = true → candidate = none
  word : v.isBlock = false → i < c.column
  block : v.isBlock = true → c.column = blockColumn k v ∧ keyAllowed = true

/-- A value whose text is read as its tokens wherever it stands. -/
def Lexes (v : Value) : Prop :=
  ∀ {k : Column} {bare bareTagged : Bool} {i : Int} {is : List Int} {c : Cursor} {keyAllowed : Bool}
    {tokens ts : List Token} {candidate : Option Candidate} {m : Nat} {rest : List Char},
    Fits i k bare bareTagged → Ready k v i c keyAllowed candidate → Continues i m rest →
    c.rest = body k v ++ (pad m ++ rest) →
    Gives (on (c.past (body k v ++ pad m)) i is true ((v.tokens bare bareTagged).reverse ++ tokens)
      none) ts →
    Gives (on c i is keyAllowed tokens candidate) ts

/-- A candidate that need not be a key may be kept or given up. -/
theorem gives_of_spare (hc : Marked c.rest) (hspare : Spare c candidate)
    (h : ∀ candidate', Spare c candidate' → Fresh c candidate' →
      (candidate = none → candidate' = none) →
      Gives (on c i is keyAllowed tokens candidate') ts) :
    Gives (on c i is keyAllowed tokens candidate) ts := by
  cases candidate with
  | none => exact h none hspare fresh_none fun _ => rfl
  | some k =>
    cases houtdated : outdated c k with
    | false =>
      refine h (some k) hspare (fun k' hk' => ?_) id
      cases hk'
      exact houtdated
    | true =>
      refine gives_of_stale (fun k' hk' => ?_) hc (h none spare_none fresh_none fun _ => rfl)
      cases hk'
      exact ⟨(hspare k rfl).1, houtdated⟩

/-! ## Leaves -/

theorem exists_endLine (cs : List Char) : ∃ s, endLine cs = cs ++ s := by
  rw [endLine]
  split
  · exact ⟨[], by simp⟩
  · exact ⟨_, rfl⟩

theorem lexes_leaf (h : v.isLeaf = true) : Lexes v := by
  intro k bare bareTagged i is c keyAllowed tokens ts candidate m rest hfits hready hrest hc hgives
  have hform : LeafForm k.scalar (leaf k.scalar v) v.leafTokens := by
    refine leafForm h (.inl ?_)
    rw [hfits.scalar]
    omega
  have hword : v.isBlock = false := isBlock_of_isLeaf h
  rw [body_leaf h] at hc hgives
  rw [tokens_leaf h] at hgives
  have hmarked : Marked c.rest := by
    obtain ⟨s, hs⟩ := exists_endLine (leaf k.scalar v)
    rw [hc, hs, List.append_assoc]
    exact marked_of_leafForm hform _
  refine gives_of_spare hmarked hready.spare fun candidate' hspare hfresh hnone => ?_
  exact gives_of_leaf_line hform hfits.scalar hc hrest (hready.word hword) hfresh hspare
    (fun hallowed => hnone (hready.lone hallowed)) hgives

/-! ## Behind a mark -/

theorem marked_leaf (h : v.isLeaf = true) (hn : 0 < n ∨ (leafText v).any isBreak = false)
    (s : List Char) :
    Marked (leaf n v ++ s) :=
  marked_of_leafForm (leafForm h hn) s

theorem marked_simpleKey {key : Value} (h : isSimpleKey key = true) (s : List Char) :
    Marked (simpleKey key ++ s) := by
  rcases isSimpleKey_cases h with ⟨name, v, rfl, -⟩ | ⟨hleaf, hkey, hfits⟩
  · rw [simpleKey, List.append_assoc]
    exact marked_tagMark _ _
  · rw [hkey]
    exact marked_leaf hleaf (.inr (leafFits_cases hfits).2.1) s

theorem marked_entryText (n : Nat) (key v : Value) (s : List Char) :
    Marked (entryText n key v ++ s) := by
  rw [entryText]
  split
  · rename_i hsimple
    rw [List.append_assoc]
    exact marked_simpleKey hsimple _
  · intro e he
    cases he
    decide

theorem marked_body {under : Bool} (h : Readable under v) (hk : 0 < k.scalar) (s : List Char) :
    Marked (body k v ++ s) := by
  cases h with
  | leaf leaf =>
    obtain ⟨t, ht⟩ := exists_endLine (Value.leaf k.scalar v)
    rw [body_leaf leaf, ht, List.append_assoc]
    exact marked_leaf leaf (.inl hk) _
  | seq items =>
    intro e he
    cases he
    decide
  | @map _ e es keys values =>
    rw [body, List.append_assoc]
    exact marked_entryText _ _ _ _
  | tagged plain after =>
    rw [body, List.append_assoc]
    exact marked_tagMark _ _

/-- A value behind a mark or a tag: the gap in front of it is passed over. -/
theorem gives_of_write {under : Bool} (hv : Readable under v) (hlexes : Lexes v)
    (hfits : Fits i k bare bareTagged) (hspare : Spare c candidate)
    (hlone : keyAllowed = true → candidate = none)
    (hcolumn : i ≤ c.column)
    (hsame : k.sameLine = true → keyAllowed = true ∧ c.column + 1 = k.mapping ∧
      c.column + 1 = k.sequence)
    (hrest : Continues i m rest) (hc : c.rest = write k none v ++ (pad m ++ rest))
    (hgives : Gives (on (c.past (write k none v ++ pad m)) i is true
      ((v.tokens bare bareTagged).reverse ++ tokens) none) ts) :
    Gives (on c i is keyAllowed tokens candidate) ts := by
  have hscalar : 0 < k.scalar := by
    rw [hfits.scalar]
    omega
  rw [write_eq hv, List.append_assoc] at hc hgives
  rw [Cursor.past_append] at hgives
  have hbody : (c.past (lead k v)).rest = body k v ++ (pad m ++ rest) := Cursor.rest_past_of hc
  have hmarked : Marked (body k v ++ (pad m ++ rest)) := marked_body hv hscalar _
  cases hlead : v.isBlock && !k.sameLine with
  | true =>
    simp only [lead, hlead, if_true] at hc hbody hgives
    rw [Bool.and_eq_true] at hlead
    refine gives_of_line hc hmarked hspare ?_
    refine hlexes hfits ⟨spare_none, fun _ => rfl, fun hword => ?_, fun _ => ⟨?_, rfl⟩⟩ hrest
      hbody hgives
    · rw [hlead.1] at hword
      cases hword
    · change (c.past ([] ++ '\n' :: pad (blockColumn k v))).column = _
      exact Cursor.column_past rfl
  | false =>
    simp only [lead, hlead, Bool.false_eq_true, if_false] at hc hbody hgives
    refine gives_of_space hc hmarked ?_
    refine hlexes hfits ⟨hspare.past [' '], hlone, fun _ => ?_, fun hblock => ?_⟩ hrest hbody hgives
    · change i < ((c.column + 1 : Nat) : Int)
      omega
    · rw [hblock, Bool.true_and, Bool.not_eq_false'] at hlead
      obtain ⟨hallowed, hmapping, hsequence⟩ := hsame hlead
      refine ⟨?_, hallowed⟩
      change c.column + 1 = _
      rw [blockColumn.eq_def]
      split
      · exact hsequence
      · exact hmapping

/-! ## Blocks that may be open already -/

/-- The columns of the blocks around a block in column `n` that is opened in one in column `i`,
unless it is that block itself. -/
def outer (i : Int) (n : Nat) (is : List Int) : List Int := if i < n then i :: is else is

/-- The tokens before the entries of such a block. -/
def started (i : Int) (n : Nat) (t : Token) (tokens : List Token) : List Token :=
  if i < n then t :: tokens else tokens

@[simp] theorem outer_self (n : Nat) (is : List Int) : outer n n is = is := if_neg (Int.lt_irrefl _)

@[simp] theorem started_self (n : Nat) (t : Token) (tokens : List Token) :
    started n n t tokens = tokens :=
  if_neg (Int.lt_irrefl _)

/-- A mark of a block, which it may open. -/
theorem gives_of_mark_in {d : Char} {ds : List Char} {t u : Token}
    (hmark : blockMark? d = some (t, u))
    (hc : c.rest = d :: ds) (hgap : isGap ds.head? = true) (hi : i ≤ n) (hn : c.column = n)
    (hgives : Gives (on (c.past [d]) n (outer i n is) true (u :: started i n t tokens) none) ts) :
    Gives (on c i is true tokens none) ts := by
  subst hn
  by_cases hopen : i < c.column
  · rw [outer, started, if_pos hopen, if_pos hopen] at hgives
    exact gives_of_open hmark hc hgap hopen hgives
  · have hsame : i = c.column := by omega
    subst hsame
    rw [outer_self, started_self] at hgives
    exact gives_of_mark hmark hc hgap rfl hgives

/-- A simple key of a block, which it may open. -/
theorem gives_of_key_in {key : Value} (hkey : isSimpleKey key = true) (htag : key.HasPlainTag)
    (hc : c.rest = simpleKey key ++ ':' :: rest) (hgap : isGap rest.head? = true) (hi : i ≤ n)
    (hn : c.column = n)
    (hgives : Gives (on (c.past (simpleKey key ++ [':'])) n (outer i n is) false
      (.value :: (key.keyTokens.reverse ++ .key :: started i n .blockMappingStart tokens)) none)
        ts) :
    Gives (on c i is true tokens none) ts := by
  subst hn
  by_cases hopen : i < c.column
  · rw [outer, started, if_pos hopen, if_pos hopen] at hgives
    exact gives_of_key_open hkey htag hc hgap hopen hgives
  · have hsame : i = c.column := by omega
    subst hsame
    rw [outer_self, started_self] at hgives
    exact gives_of_key hkey htag hc hgap rfl hgives

theorem isGap_write {under : Bool} (hv : Readable under v) (k : Column) (s : List Char) :
    isGap (write k none v ++ s).head? = true := by
  rw [write_eq hv, lead]
  split <;> rfl

/-- A mark of a block in column `n`, with the value behind it. -/
theorem gives_of_marked {d : Char} {t u : Token} (hmark : blockMark? d = some (t, u))
    (hv : Readable false v)
    (hlexes : Lexes v) (hfits : Fits n k bare bareTagged)
    (hk : k.mapping = n + 2 ∧ k.sequence = n + 2)
    (hi : i ≤ n) (hn : c.column = n) (hrest : Continues n m rest)
    (hc : c.rest = d :: write k none v ++ (pad m ++ rest))
    (hgives : Gives (on (c.past (d :: write k none v ++ pad m)) n (outer i n is) true
      ((v.tokens bare bareTagged).reverse ++ u :: started i n t tokens) none) ts) :
    Gives (on c i is true tokens none) ts := by
  have hbreak : isBreak d = false := (marked_of_blockMark? hmark []).2
  have hpast : c.past [d] = c.skip 1 := Cursor.past_eq_skip (by simp [hbreak])
  have hbehind : (c.past [d]).rest = write k none v ++ (pad m ++ rest) := Cursor.rest_past_of hc
  have hcolumn : (c.past [d]).column = n + 1 := by
    rw [hpast, ← hn]
    rfl
  refine gives_of_mark_in hmark hc (isGap_write hv _ _) hi hn ?_
  refine gives_of_write hv hlexes hfits spare_none (fun _ => rfl) ?_ (fun _ => ⟨rfl, ?_, ?_⟩) hrest
    hbehind ?_
  · omega
  · rw [hcolumn, hk.1]
  · rw [hcolumn, hk.2]
  · rwa [← Cursor.past_append]

/-! ## Sequences -/

/-- The items of a sequence, from the dash of the first one. -/
theorem gives_of_items {vs : List Value} (hvs : ∀ w ∈ v :: vs, Readable false w ∧ Lexes w)
    (hi : i ≤ n)
    (hn : c.column = n) (hrest : Continues n m rest)
    (hc : c.rest = '-' :: write (.dash n) none v ++ writeItems n vs ++ (pad m ++ rest))
    (hgives : Gives (on (c.past ('-' :: write (.dash n) none v ++ writeItems n vs ++ pad m)) n
      (outer i n is) true
      ((itemTokens (v :: vs)).reverse ++ started i n .blockSequenceStart tokens) none) ts) :
    Gives (on c i is true tokens none) ts := by
  induction vs generalizing v i is c tokens with
  | nil =>
    obtain ⟨hv, hlexes⟩ := hvs v List.mem_cons_self
    rw [writeItems, List.append_nil] at hc hgives
    refine gives_of_marked (d := '-') rfl hv hlexes (fits_dash n) ⟨rfl, rfl⟩ hi hn hrest hc ?_
    simpa [itemTokens] using hgives
  | cons w ws ih =>
    obtain ⟨⟨hv, hlexes⟩, hws⟩ := List.forall_mem_cons.1 hvs
    rw [writeItems_cons, List.append_assoc, List.append_assoc] at hc
    have hnext : Continues n n ('-' :: write (.dash n) none w ++ writeItems n ws ++
        (pad m ++ rest)) := by
      refine ⟨fun e he => ?_, .inr (Int.le_refl _)⟩
      cases he
      decide
    have hends : EndsLine ('-' :: write (.dash n) none v) := (endsLine_write v _ _).cons '-'
    refine gives_of_marked (d := '-') rfl hv hlexes (fits_dash n) ⟨rfl, rfl⟩ hi hn hnext hc ?_
    refine ih hws (Int.le_refl _) (hends.column_past n) (Cursor.rest_past_of ?_) ?_
    · rw [hc]
      simp
    · rw [← Cursor.past_append, outer_self, started_self]
      simpa [itemTokens, writeItems_cons] using hgives

/-! ## Mappings -/

theorem hasPlainTag_of_readable {under : Bool} {key : Value} (h : Readable under key) :
    key.HasPlainTag := by
  cases h with
  | leaf leaf =>
    cases key with
    | tagged => cases leaf
    | null | bool | int | float | str | seq | map => trivial
  | seq | map => trivial
  | tagged plain after => exact plain

/-- An entry of a mapping. -/
theorem gives_of_entry {key : Value} (hkey : Readable false key) (hlexesKey : Lexes key)
    (hv : Readable false v)
    (hlexes : Lexes v) (hi : i ≤ n) (hn : c.column = n) (hrest : Continues n m rest)
    (hc : c.rest = entryText n key v ++ (pad m ++ rest))
    (hgives : Gives (on (c.past (entryText n key v ++ pad m)) n (outer i n is) true
      ((entryTokens [(key, v)]).reverse ++ started i n .blockMappingStart tokens) none) ts) :
    Gives (on c i is true tokens none) ts := by
  rw [entryTokens, entryTokens, List.append_nil] at hgives
  cases hsimple : isSimpleKey key with
  | true =>
    simp only [entryText, hsimple, if_true] at hc hgives
    have hline : (simpleKey key ++ [':']).any isBreak = false := by
      rw [List.any_append, any_isBreak_simpleKey hsimple]
      rfl
    have hpast : c.past (simpleKey key ++ [':']) = c.skip (simpleKey key ++ [':']).length :=
      Cursor.past_eq_skip hline
    rw [List.append_assoc, List.cons_append] at hc
    have hbehind : (c.past (simpleKey key ++ [':'])).rest =
        write (.value n) none v ++ (pad m ++ rest) :=
      Cursor.rest_past_of (by rw [hc]; simp)
    refine gives_of_key_in hsimple (hasPlainTag_of_readable hkey) hc (isGap_write hv _ _) hi hn ?_
    refine gives_of_write hv hlexes (fits_value n) spare_none (fun _ => rfl) ?_ (by rintro ⟨⟩) hrest
      hbehind ?_
    · rw [hpast, ← hn]
      change (c.column : Int) ≤ ((c.column + _ : Nat) : Int)
      omega
    · rw [← Cursor.past_append]
      simpa [tokens_simpleKey hsimple] using hgives
  | false =>
    simp only [entryText, hsimple, Bool.false_eq_true, if_false] at hc hgives
    have hends : EndsLine ('?' :: write (.mark n) none key) := (endsLine_write key _ _).cons '?'
    have hnext : Continues n n (':' :: write (.mark n) none v ++ (pad m ++ rest)) := by
      refine ⟨fun e he => ?_, .inr (Int.le_refl _)⟩
      cases he
      decide
    have hfirst : c.rest = '?' :: write (.mark n) none key ++
        (pad n ++ (':' :: write (.mark n) none v ++ (pad m ++ rest))) := by
      rw [hc]
      simp
    refine gives_of_marked (d := '?') rfl hkey hlexesKey (fits_mark n) ⟨rfl, rfl⟩ hi hn hnext
      hfirst ?_
    refine gives_of_marked (d := ':') rfl hv hlexes (fits_mark n) ⟨rfl, rfl⟩ (Int.le_refl _)
      (hends.column_past n)
      hrest (Cursor.rest_past_of ?_) ?_
    · rw [hfirst]
      simp
    · rw [← Cursor.past_append, outer_self, started_self]
      simpa using hgives

/-- The entries of a mapping, from the first one. -/
theorem gives_of_entries {e : Value × Value} {es : Entries}
    (hes : ∀ f ∈ e :: es, (Readable false f.1 ∧ Lexes f.1) ∧ Readable false f.2 ∧ Lexes f.2)
    (hi : i ≤ n)
    (hn : c.column = n) (hrest : Continues n m rest)
    (hc : c.rest = entryText n e.1 e.2 ++ writeEntries n es ++ (pad m ++ rest))
    (hgives : Gives (on (c.past (entryText n e.1 e.2 ++ writeEntries n es ++ pad m)) n
      (outer i n is) true
      ((entryTokens (e :: es)).reverse ++ started i n .blockMappingStart tokens) none) ts) :
    Gives (on c i is true tokens none) ts := by
  induction es generalizing e i is c tokens with
  | nil =>
    obtain ⟨⟨hkey, hlexesKey⟩, hv, hlexes⟩ := hes e List.mem_cons_self
    rw [writeEntries, List.append_nil] at hc hgives
    exact gives_of_entry hkey hlexesKey hv hlexes hi hn hrest hc hgives
  | cons f fs ih =>
    obtain ⟨⟨⟨hkey, hlexesKey⟩, hv, hlexes⟩, hfs⟩ := List.forall_mem_cons.1 hes
    rw [writeEntries_cons, List.append_assoc, List.append_assoc] at hc
    have hnext : Continues n n (entryText n f.1 f.2 ++ writeEntries n fs ++ (pad m ++ rest)) := by
      rw [List.append_assoc]
      exact ⟨marked_entryText _ _ _ _, .inr (Int.le_refl _)⟩
    have hends : EndsLine (entryText n e.1 e.2) := endsLine_entryText n fun c tag =>
      endsLine_write e.2 c tag
    refine gives_of_entry hkey hlexesKey hv hlexes hi hn hnext hc ?_
    refine ih hfs (Int.le_refl _) (hends.column_past n) (Cursor.rest_past_of ?_) ?_
    · rw [hc]
      simp
    · rw [writeEntries_cons] at hgives
      rw [← Cursor.past_append, outer_self, started_self]
      simpa [entryTokens] using hgives

/-! ## Every value -/

theorem Continues.mono {j : Int} (h : Continues i m rest) (hij : i ≤ j) : Continues j m rest :=
  ⟨h.marked, h.shallow.imp_right fun hm => Int.le_trans hm hij⟩

/-- The end of a block. -/
theorem gives_of_blockEnd {w : List Char} (hw : EndsLine w) (hrest : Continues i m rest)
    (hi : i < n)
    (hc : (c.past (w ++ pad m)).rest = rest)
    (hgives : Gives (on (c.past (w ++ pad m)) i is true (.blockEnd :: tokens) none) ts) :
    Gives (on (c.past (w ++ pad m)) n (outer i n is) true tokens none) ts := by
  rw [outer, if_pos hi]
  refine gives_of_close (by rw [hc]; exact hrest.marked) ?_ hgives
  rw [hw.column_past, hc]
  rcases hrest.shallow with ⟨hnil, -⟩ | hm
  · exact .inl ⟨hnil, by omega⟩
  · exact .inr (by omega)

theorem lexes_seq {vs : List Value} (hvs : ∀ w ∈ v :: vs, Readable false w ∧ Lexes w) :
    Lexes (.seq (v :: vs)) := by
  intro k bare bareTagged i is c keyAllowed tokens ts candidate m rest hfits hready hrest hc hgives
  obtain ⟨hcolumn, rfl⟩ := hready.block rfl
  obtain rfl := hready.lone rfl
  change c.column = k.sequence at hcolumn
  have hsequence := hfits.sequence
  have hends : EndsLine ('-' :: write (.dash k.sequence) none v ++ writeItems k.sequence vs) := by
    rw [List.cons_append]
    exact (endsLine_items _ fun w _ c tag => endsLine_write w c tag).cons '-'
  cases bare with
  | true =>
    rw [if_pos rfl] at hsequence
    refine gives_of_items hvs (by omega) hcolumn (hrest.mono (by omega)) hc ?_
    subst hsequence
    rw [outer_self, started_self]
    exact hgives
  | false =>
    rw [if_neg Bool.false_ne_true] at hsequence
    refine gives_of_items hvs (by omega) hcolumn (hrest.mono (by omega)) hc ?_
    refine gives_of_blockEnd hends hrest hsequence
      (Cursor.rest_past_of (by rw [hc]; simp [body])) ?_
    rw [started, if_pos hsequence]
    simpa [Value.tokens, body] using hgives

theorem lexes_map {e : Value × Value} {es : Entries}
    (hes : ∀ f ∈ e :: es, (Readable false f.1 ∧ Lexes f.1) ∧ Readable false f.2 ∧ Lexes f.2) :
    Lexes (.map (e :: es)) := by
  intro k bare bareTagged i is c keyAllowed tokens ts candidate m rest hfits hready hrest hc hgives
  obtain ⟨hcolumn, rfl⟩ := hready.block rfl
  obtain rfl := hready.lone rfl
  change c.column = k.mapping at hcolumn
  have hmapping := hfits.mapping
  have hends : EndsLine (entryText k.mapping e.1 e.2 ++ writeEntries k.mapping es) :=
    endsLine_entries _ fun f _ c tag => endsLine_write f.2 c tag
  refine gives_of_entries hes (by omega) hcolumn (hrest.mono (by omega)) hc ?_
  refine gives_of_blockEnd hends hrest hmapping (Cursor.rest_past_of (by rw [hc]; simp [body])) ?_
  rw [started, if_pos hmapping]
  simpa [Value.tokens, body] using hgives

theorem lexes_tagged {name : String} (hname : Token.PlainName name) (hv : Readable true v)
    (hlexes : Lexes v) :
    Lexes (.tagged name v) := by
  intro k bare bareTagged i is c keyAllowed tokens ts candidate m rest hfits hready hrest hc hgives
  have hcolumn : i < c.column := hready.word rfl
  have hc' : c.rest = tagMark name ++ (write k.tagged none v ++ (pad m ++ rest)) := by
    rw [hc, body, List.append_assoc]
  have hbehind : (c.past (tagMark name)).rest = write k.tagged none v ++ (pad m ++ rest) :=
    Cursor.rest_past_of hc'
  have hpast : c.past (tagMark name) = c.skip (tagMark name).length :=
    Cursor.past_eq_skip (any_isBreak_tagMark name)
  refine gives_of_spare (hc' ▸ marked_tagMark _ _) hready.spare
    fun candidate' hspare hfresh hnone => ?_
  refine gives_of_tag hname (isGap_write hv _ _) hc' (by omega) hfresh
    (fun h => hnone (hready.lone h)) ?_
  refine gives_of_write hv hlexes hfits.tagged ((spare_begun hcolumn hspare).past _)
    (by rintro ⟨⟩) ?_
    (by rintro ⟨⟩) hrest hbehind ?_
  · rw [hpast]
    change i ≤ ((c.column + _ : Nat) : Int)
    omega
  · rw [← Cursor.past_append]
    simpa [Value.tokens, body] using hgives

/-- **The text of a value is read as its tokens, wherever it stands.** -/
theorem lexes_of_readable {under : Bool} (h : Readable under v) : Lexes v := by
  induction h with
  | leaf leaf => exact lexes_leaf leaf
  | seq items ih => exact lexes_seq fun w hw => ⟨items w hw, ih w hw⟩
  | map keys values ihKeys ihValues =>
    exact lexes_map fun f hf => ⟨⟨keys f hf, ihKeys f hf⟩, values f hf, ihValues f hf⟩
  | tagged plain after ih => exact lexes_tagged plain after ih

end Lexer

/-! ## Whole texts -/

theorem Value.drop_write {under : Bool} {v : Value} (h : Readable under v) :
    (write .root none v).drop 1 = body .root v := by
  have hlead : lead .root v = [' '] := by
    rw [lead, Column.root, Bool.not_true, Bool.and_false, if_neg Bool.false_ne_true]
  rw [write_eq h, hlead]
  rfl

/-- **The tokens of a printed value.** -/
theorem Token.ofText?_print {v : Value} (h : Readable false v) :
    Token.ofText? ((write .root none v).drop 1) = some (v.tokens false false) := by
  have hallowed : ((write .root none v).drop 1).all isAllowed = true := by
    rw [List.all_eq_true]
    exact fun d hd => isAllowed_of_isPrintable
      (allPrintable_print v .root none d (List.mem_of_mem_drop hd))
  rw [Token.ofText?, hallowed, if_pos rfl, Value.drop_write h]
  have hready : Lexer.Ready .root v (-1) { rest := body .root v } true none := by
    refine ⟨Lexer.spare_none, fun _ => rfl, fun _ => Int.negSucc_lt_zero 0, fun hblock => ⟨?_, rfl⟩⟩
    cases v <;> rfl
  have hend : Lexer.Continues (-1) 0 [] := ⟨nofun, .inl ⟨rfl, rfl⟩⟩
  have hgives : Lexer.Gives (Lexer.on { rest := body .root v } (-1) [] true [] none)
    (v.tokens false false) := by
    refine Lexer.lexes_of_readable h fits_root hready hend (by simp [pad]) ?_
    rw [List.append_nil]
    have hlast : Lexer.Gives (Lexer.on
        (({ rest := body .root v } : Cursor).past (body .root v ++ pad 0)) (-1) [] true
        (v.tokens false false).reverse none) (v.tokens false false).reverse.reverse :=
      Lexer.gives_of_end (Cursor.rest_past_of (by simp [pad]))
    rwa [List.reverse_reverse] at hlast
  exact hgives _ (Nat.lt_succ_self _)

end TestOrchestrator.Yaml
