import TestOrchestrator.Proofs.ReadBack.Keys
/-!
# What a printed value is made of

* `Value.lead` and `Value.body` are the gap in front of a printed value and what stands behind it;
  `Value.write_eq` puts them together.
* `Value.tokens` are the tokens of a printed value.
-/

namespace TestOrchestrator.Yaml.Value

open Quoting

/-- The place behind a tag. -/
def Column.tagged (c : Column) : Column :=
  { c with sequence := c.taggedSequence, sameLine := false }

/-- Whether a value is written as a block of entries. -/
def isBlock : Value → Bool
  | seq (_ :: _) | map (_ :: _) => true
  | _ => false

/-- The column in which the entries of a block stand. -/
def blockColumn (c : Column) : Value → Nat
  | seq _ => c.sequence
  | _ => c.mapping

/-- The gap in front of a value. -/
def lead (c : Column) (v : Value) : List Char :=
  if v.isBlock && !c.sameLine then '\n' :: pad (blockColumn c v) else [' ']

/-- An entry of a mapping whose entries stand in column `n`. -/
def entryText (n : Nat) (k v : Value) : List Char :=
  if isSimpleKey k then simpleKey k ++ ':' :: write (.value n) none v
  else '?' :: write (.mark n) none k ++ pad n ++ ':' :: write (.mark n) none v

/-- A value without the gap in front of it. -/
def body (c : Column) : Value → List Char
  | tagged name v => tagMark name ++ write c.tagged none v
  | seq (v :: vs) => '-' :: write (.dash c.sequence) none v ++ writeItems c.sequence vs
  | map ((k, v) :: es) => entryText c.mapping k v ++ writeEntries c.mapping es
  | v => endLine (leaf c.scalar v)

/-- A value that can be written and read; `under` tells that a tag stands before it. -/
inductive Readable : Bool → Value → Prop
  | leaf {under : Bool} {v : Value} (leaf : v.isLeaf = true) : Readable under v
  | seq {under : Bool} {v : Value} {vs : List Value} (items : ∀ w ∈ v :: vs, Readable false w) :
      Readable under (.seq (v :: vs))
  | map {under : Bool} {e : Value × Value} {es : Entries} (keys : ∀ f ∈ e :: es, Readable false f.1)
      (values : ∀ f ∈ e :: es, Readable false f.2) : Readable under (.map (e :: es))
  | tagged {name : String} {v : Value} (plain : Token.PlainName name) (after : Readable true v) :
      Readable false (.tagged name v)

variable {c : Column} {name : String} {v : Value} {under : Bool}

theorem Readable.not_tagged (h : Readable true v) (w : Value) : v ≠ .tagged name w := by
  rintro rfl
  cases h with
  | leaf leaf => cases leaf

theorem write_tagged (h : Readable true v) :
    write c (some name) v = ' ' :: tagMark name ++ write c.tagged none v := by
  cases v with
  | tagged name w => exact (h.not_tagged w rfl).elim
  | seq items => cases items <;> simp [write, spacedTag, blockStart, Column.tagged, leaf]
  | map entries =>
    cases entries with
    | nil => simp [write, spacedTag, leaf]
    | cons e es =>
      obtain ⟨k, v⟩ := e
      simp [write, spacedTag, blockStart, Column.tagged]
  | null | bool | int | float | str => simp [write, spacedTag, Column.tagged]

theorem write_eq (h : Readable under v) : write c none v = lead c v ++ body c v := by
  cases h with
  | leaf leaf =>
    cases v with
    | tagged => cases leaf
    | seq items =>
      cases items with
      | nil => simp [write, spacedTag, lead, body, isBlock]
      | cons => cases leaf
    | map entries =>
      cases entries with
      | nil => simp [write, spacedTag, lead, body, isBlock]
      | cons => cases leaf
    | null | bool | int | float | str => simp [write, spacedTag, lead, body, isBlock]
  | seq items =>
    cases hline : c.sameLine <;> simp [write, spacedTag, blockStart, lead, body, isBlock,
      blockColumn, hline]
  | @map _ e es keys values =>
    obtain ⟨k, v⟩ := e
    cases hline : c.sameLine <;>
      simp [write, spacedTag, blockStart, lead, body, isBlock, blockColumn, entryText, hline]
  | tagged plain after =>
    rw [write, write_tagged after]
    rfl

theorem body_leaf (h : v.isLeaf = true) : body c v = endLine (leaf c.scalar v) := by
  cases v with
  | seq items =>
    cases items with
    | nil => rw [body]; all_goals exact nofun
    | cons => cases h
  | map entries =>
    cases entries with
    | nil => rw [body]; all_goals exact nofun
    | cons => cases h
  | tagged => cases h
  | null | bool | int | float | str => rw [body]; all_goals exact nofun

theorem isBlock_of_isLeaf (h : v.isLeaf = true) : v.isBlock = false := by
  cases v with
  | seq items =>
    cases items with
    | nil => rfl
    | cons => cases h
  | map entries =>
    cases entries with
    | nil => rfl
    | cons => cases h
  | tagged => cases h
  | null | bool | int | float | str => rfl

theorem writeItems_cons (n : Nat) (v : Value) (vs : List Value) :
    writeItems n (v :: vs) = pad n ++ ('-' :: write (.dash n) none v ++ writeItems n vs) := by
  simp [writeItems]

theorem writeEntries_cons (n : Nat) (k v : Value) (es : Entries) :
    writeEntries n ((k, v) :: es) = pad n ++ (entryText n k v ++ writeEntries n es) := by
  simp [writeEntries, entryText]

/-! ## Ends of lines -/

/-- A text that ends with a line break. -/
def EndsLine (cs : List Char) : Prop := ∃ ds d, cs = ds ++ [d] ∧ isBreak d = true

variable {cs ds : List Char}

theorem EndsLine.append (h : EndsLine ds) (cs : List Char) : EndsLine (cs ++ ds) := by
  obtain ⟨es, e, rfl, he⟩ := h
  exact ⟨cs ++ es, e, by simp, he⟩

theorem EndsLine.cons (h : EndsLine ds) (d : Char) : EndsLine (d :: ds) := h.append [d]

theorem endsLine_endLine (cs : List Char) : EndsLine (endLine cs) := by
  rw [endLine]
  split
  · rename_i h
    cases hlast : cs.getLast? with
    | none =>
      rw [hlast] at h
      cases h
    | some d =>
      rw [hlast] at h
      obtain ⟨ds, rfl⟩ := List.getLast?_eq_some_iff.1 hlast
      exact ⟨ds, d, rfl, h⟩
  · exact ⟨cs, '\n', rfl, rfl⟩

theorem EndsLine.column_past {c : Cursor} (h : EndsLine cs) (m : Nat) :
    (c.past (cs ++ pad m)).column = m := by
  obtain ⟨ds, d, rfl, hd⟩ := h
  rw [List.append_assoc, List.singleton_append]
  exact Cursor.column_past hd

theorem endsLine_items (n : Nat) {v : Value} {vs : List Value}
    (h : ∀ w ∈ v :: vs, ∀ c tag, EndsLine (write c tag w)) :
    EndsLine (write (.dash n) none v ++ writeItems n vs) := by
  induction vs generalizing v with
  | nil =>
    rw [writeItems, List.append_nil]
    exact h v List.mem_cons_self _ _
  | cons w ws ih =>
    have hitems := ih fun x hx => h x (List.mem_cons_of_mem _ hx)
    rw [writeItems_cons, List.cons_append]
    exact ((hitems.cons '-').append (pad n)).append _

theorem endsLine_entryText (n : Nat) {k v : Value} (h : ∀ c tag, EndsLine (write c tag v)) :
    EndsLine (entryText n k v) := by
  rw [entryText]
  split
  · exact ((h _ _).cons ':').append _
  · exact ((h _ _).cons ':').append _

theorem endsLine_entries (n : Nat) {e : Value × Value} {es : Entries}
    (h : ∀ f ∈ e :: es, ∀ c tag, EndsLine (write c tag f.2)) :
    EndsLine (entryText n e.1 e.2 ++ writeEntries n es) := by
  induction es generalizing e with
  | nil =>
    rw [writeEntries, List.append_nil]
    exact endsLine_entryText n (h e List.mem_cons_self)
  | cons f fs ih =>
    have hentries := ih fun x hx => h x (List.mem_cons_of_mem _ hx)
    rw [writeEntries_cons]
    exact (hentries.append (pad n)).append _

theorem endsLine_write (v : Value) (c : Column) (tag : Option String) :
    EndsLine (write c tag v) := by
  induction v using Value.induction generalizing c tag with
  | null | bool | int | float | str =>
    rw [write]
    · exact ((endsLine_endLine _).cons ' ').append _
    all_goals exact nofun
  | seq items ih =>
    cases items with
    | nil =>
      rw [write]
      · exact ((endsLine_endLine _).cons ' ').append _
      all_goals exact nofun
    | cons v vs =>
      rw [write]
      simp only [List.append_assoc]
      exact ((endsLine_items _ ih).cons '-').append _
  | map entries ih =>
    cases entries with
    | nil =>
      rw [write]
      · exact ((endsLine_endLine _).cons ' ').append _
      all_goals exact nofun
    | cons e es =>
      obtain ⟨k, v⟩ := e
      rw [write, List.append_assoc]
      exact (endsLine_entries c.mapping fun f hf => (ih f hf).2).append _
  | tagged name v ih =>
    rw [write]
    exact ih c (some name)

/-! ## Tokens -/

mutual

/-- The tokens of a printed value. In a `bare` place a sequence has no marks around its entries;
`bareTagged` says whether the place behind a tag is one. -/
def tokens (bare bareTagged : Bool) : Value → List Token
  | tagged name v => .ofTag name :: tokens bareTagged bareTagged v
  | seq items =>
    if items.isEmpty then [.flowSequenceStart, .flowSequenceEnd]
    else if bare then itemTokens items
    else .blockSequenceStart :: itemTokens items ++ [.blockEnd]
  | map entries =>
    if entries.isEmpty then [.flowMappingStart, .flowMappingEnd]
    else .blockMappingStart :: entryTokens entries ++ [.blockEnd]
  | v => leafTokens v

/-- The tokens of the items of a sequence. -/
def itemTokens : List Value → List Token
  | [] => []
  | v :: vs => .blockEntry :: tokens false false v ++ itemTokens vs

/-- The tokens of the entries of a mapping. -/
def entryTokens : Entries → List Token
  | [] => []
  | (k, v) :: es =>
    .key :: tokens false true k ++ .value :: tokens (isSimpleKey k) true v ++ entryTokens es

end

theorem tokens_leaf (h : v.isLeaf = true) (bare bareTagged : Bool) :
    v.tokens bare bareTagged = v.leafTokens := by
  cases v with
  | seq items =>
    cases items with
    | nil => rfl
    | cons => cases h
  | map entries =>
    cases entries with
    | nil => rfl
    | cons => cases h
  | tagged => cases h
  | null | bool | int | float | str => rfl

/-- The tokens of a simple key do not depend on its place. -/
theorem tokens_simpleKey {k : Value} (h : isSimpleKey k = true) (bare bareTagged : Bool) :
    k.tokens bare bareTagged = k.keyTokens := by
  rcases isSimpleKey_cases h with ⟨name, v, rfl, hfits⟩ | ⟨hleaf, -, -⟩
  · rw [tokens, keyTokens, tokens_leaf (leafFits_cases hfits).1]
  · rw [tokens_leaf hleaf]
    cases k with
    | tagged => cases hleaf
    | null | bool | int | float | str | seq | map => rfl

end TestOrchestrator.Yaml.Value
