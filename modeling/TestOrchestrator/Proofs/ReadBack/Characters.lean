import TestOrchestrator.Proofs.ReadBack.Printed
/-!
# The characters of a printed value

* `Value.allPrintable_print`: a printed value has printable characters only.
  `isAllowed_of_isPrintable`: a text may hold them.
-/

namespace TestOrchestrator.Yaml

open Quoting

variable {cs ds : List Char} {d : Char} {n : Nat}

theorem isAllowed_of_isPrintable (h : isPrintable d = true) : isAllowed d = true := by
  have hvalid := Text.Utf8.toNat_valid d
  simp only [isPrintable, Bool.or_eq_true, Bool.and_eq_true, decide_eq_true_eq] at h
  simp only [isAllowed, Bool.or_eq_true, Bool.and_eq_true, decide_eq_true_eq]
  omega

namespace Quoting

/-- A text without a character that needs an escape. -/
def AllPrintable (cs : List Char) : Prop := ∀ d ∈ cs, isPrintable d = true

theorem AllPrintable.cons (h : AllPrintable cs) (hd : isPrintable d = true) :
    AllPrintable (d :: cs) :=
  List.forall_mem_cons.2 ⟨hd, h⟩

theorem AllPrintable.append (h : AllPrintable cs) (hds : AllPrintable ds) :
    AllPrintable (cs ++ ds) :=
  List.forall_mem_append.2 ⟨h, hds⟩

theorem allPrintable_pad (n : Nat) : AllPrintable (pad n) := by
  intro d hd
  rw [List.eq_of_mem_replicate hd]
  rfl

theorem AllPrintable.indented (h : AllPrintable cs) (n : Nat) (start : Bool) :
    AllPrintable (indented n start cs) := by
  induction cs generalizing start with
  | nil => exact h
  | cons d cs ih =>
    obtain ⟨hd, hcs⟩ := List.forall_mem_cons.1 h
    rw [Quoting.indented]
    split
    · exact List.forall_mem_cons.2 ⟨hd, ih hcs true⟩
    · refine List.forall_mem_append.2 ⟨?_, List.forall_mem_cons.2 ⟨hd, ih hcs false⟩⟩
      split
      · exact allPrintable_pad n
      · exact List.forall_mem_nil _

theorem isPrintable_of_hexDigit? {k : Nat} (h : Scalar.hexDigit? d = some k) :
    isPrintable d = true := by
  simp only [Scalar.hexDigit?, Bool.and_eq_true, decide_eq_true_eq, Char.le_def,
    UInt32.le_iff_toNat_le] at h
  change (if 48 ≤ d.toNat ∧ d.toNat ≤ 57 then _ else if 65 ≤ d.toNat ∧ d.toNat ≤ 70 then _ else
    if 97 ≤ d.toNat ∧ d.toNat ≤ 102 then _ else _) = _ at h
  simp only [isPrintable, Bool.or_eq_true, Bool.and_eq_true, decide_eq_true_eq]
  split_ifs at h <;> omega

theorem allPrintable_hex (k n : Nat) : AllPrintable (hex k n) := by
  intro d hd
  obtain ⟨v, hv⟩ := exists_hexDigit?_of_mem hd
  exact isPrintable_of_hexDigit? hv

theorem allPrintable_pair {e : Char} (he : isPrintable e = true) (h : AllPrintable cs) :
    AllPrintable ('\\' :: e :: cs) :=
  List.forall_mem_cons.2 ⟨rfl, List.forall_mem_cons.2 ⟨he, h⟩⟩

theorem allPrintable_escaped (d : Char) : AllPrintable (escaped d) := by
  rcases Scalar.escaped_cases d with ⟨hescaped, hd, -⟩ | ⟨e, hescaped, he, -⟩ | ⟨e, k,
    hescaped, he, -⟩
  · rw [hescaped]
    exact List.forall_mem_singleton.2 hd
  · rw [hescaped]
    exact allPrintable_pair he nofun
  · rw [hescaped]
    exact allPrintable_pair he (allPrintable_hex k _)

theorem allPrintable_single (n : Nat) (h : AllPrintable cs) : AllPrintable (single n cs) := by
  have hwithin : AllPrintable (cs.flatMap (within false)) := by
    intro d hd
    obtain ⟨e, he, hde⟩ := List.mem_flatMap.1 hd
    by_cases hquote : e = '\''
    · have hsame : d = '\'' := by simpa [within, hquote] using hde
      rw [hsame]
      rfl
    · have hsame : d = e := by simpa [within, hquote] using hde
      rw [hsame]
      exact h e he
  rw [single_eq, lines]
  refine List.forall_mem_append.2 ⟨List.forall_mem_cons.2 ⟨rfl, ?_⟩, List.all_eq_true.1 rfl⟩
  refine List.forall_mem_append.2 ⟨hwithin.indented n false, ?_⟩
  split
  · exact allPrintable_pad n
  · exact List.forall_mem_nil _

theorem allPrintable_blockMarks (cs : List Char) : AllPrintable (blockMarks cs) := by
  rw [blockMarks]
  refine List.forall_mem_append.2 ⟨?_, ?_⟩
  · split <;> exact List.all_eq_true.1 rfl
  · split
    · exact List.all_eq_true.1 rfl
    · split <;> exact List.all_eq_true.1 rfl
    · split_ifs <;> exact List.all_eq_true.1 rfl

theorem allPrintable_literal (n : Nat) (h : AllPrintable cs) : AllPrintable (literal n cs) := by
  rw [literal]
  refine List.forall_mem_append.2 ⟨List.forall_mem_cons.2 ⟨rfl, allPrintable_blockMarks cs⟩, ?_⟩
  exact List.forall_mem_cons.2 ⟨rfl, h.indented n true⟩

/-- A text is written with printable characters only. -/
theorem allPrintable_write (n : Nat) (cs : List Char) : AllPrintable (write n cs) := by
  rcases style_cases cs with ⟨hstyle, hplain⟩ | ⟨hstyle, -, hsingle⟩ | hstyle | ⟨hstyle, -, hblock⟩
  · rw [write, hstyle]
    exact hplain.printable
  · simp only [allowsSingle, Bool.and_eq_true] at hsingle
    rw [write, hstyle]
    exact allPrintable_single n (List.all_eq_true.1 hsingle.1.1)
  · rw [write, hstyle]
    refine List.forall_mem_append.2 ⟨List.forall_mem_cons.2 ⟨rfl, ?_⟩, List.all_eq_true.1 rfl⟩
    intro d hd
    obtain ⟨e, -, he⟩ := List.mem_flatMap.1 hd
    exact allPrintable_escaped e d he
  · simp only [allowsBlock, Bool.and_eq_true] at hblock
    rw [write, hstyle]
    exact allPrintable_literal n (List.all_eq_true.1 hblock.1.1.1)

end Quoting

namespace Value

theorem allPrintable_leaf (n : Nat) (v : Value) : AllPrintable (leaf n v) := by
  cases v with
  | null => exact (fitsPlain_leafText (v := .null) rfl).printable
  | bool b => exact (fitsPlain_leafText (v := .bool b) rfl).printable
  | int k => exact (fitsPlain_leafText (v := .int k) rfl).printable
  | float x => exact (fitsPlain_leafText (v := .float x) rfl).printable
  | str s => exact allPrintable_write n s.toList
  | seq => exact List.all_eq_true.1 rfl
  | map => exact List.all_eq_true.1 rfl
  | tagged => exact nofun

theorem allPrintable_endLine (h : AllPrintable cs) : AllPrintable (endLine cs) := by
  rw [endLine]
  split
  · exact h
  · exact List.forall_mem_append.2 ⟨h, List.all_eq_true.1 rfl⟩

theorem isPrintable_of_isTagSafe (h : isTagSafe d = true) : isPrintable d = true := by
  rw [isTagSafe, Bool.or_eq_true, List.contains_iff_mem] at h
  rcases h with hword | hmem
  · exact (isPrintable_of_isNumeric (by rw [isNumeric, hword, Bool.true_or])).1
  · exact List.all_eq_true.1 rfl d hmem

theorem allPrintable_tagText (cs : List Char) : AllPrintable (tagText cs) := by
  induction cs with
  | nil => exact nofun
  | cons d cs ih =>
    rw [Token.tagText_cons]
    refine List.forall_mem_append.2 ⟨?_, ih⟩
    split
    · rename_i hsafe
      exact List.forall_mem_cons.2 ⟨isPrintable_of_isTagSafe hsafe, nofun⟩
    · intro e he
      obtain ⟨b, -, hb⟩ := List.mem_flatMap.1 he
      rcases List.mem_cons.1 hb with rfl | hb
      · rfl
      · exact allPrintable_hex _ _ e hb

theorem allPrintable_tagMark (name : String) : AllPrintable (tagMark name) := by
  unfold tagMark
  split
  · refine List.forall_mem_append.2 ⟨?_, List.all_eq_true.1 rfl⟩
    exact List.forall_mem_cons.2 ⟨rfl, List.forall_mem_cons.2 ⟨rfl, allPrintable_tagText _⟩⟩
  · exact List.forall_mem_cons.2 ⟨rfl, allPrintable_tagText _⟩
  · exact List.forall_mem_cons.2 ⟨rfl, allPrintable_tagText _⟩

theorem allPrintable_simpleKey (k : Value) : AllPrintable (simpleKey k) := by
  rw [simpleKey.eq_def]
  split
  · exact List.forall_mem_append.2 ⟨allPrintable_tagMark _,
      List.forall_mem_cons.2 ⟨rfl, allPrintable_leaf 0 _⟩⟩
  · exact allPrintable_leaf 0 _

theorem allPrintable_spacedTag (tag : Option String) : AllPrintable (spacedTag tag) := by
  cases tag with
  | none => exact nofun
  | some name => exact AllPrintable.cons (allPrintable_tagMark name) rfl

theorem allPrintable_blockStart (c : Column) (tag : Option String) (n : Nat) :
    AllPrintable (blockStart c tag n) := by
  rw [blockStart]
  split
  · exact List.forall_mem_singleton.2 rfl
  · exact (allPrintable_spacedTag tag).append (AllPrintable.cons (allPrintable_pad n) rfl)

theorem allPrintable_spacedLeaf (c : Column) (tag : Option String) (v : Value) :
    AllPrintable (spacedTag tag ++ ' ' :: endLine (leaf c.scalar v)) :=
  (allPrintable_spacedTag tag).append
    (AllPrintable.cons (allPrintable_endLine (allPrintable_leaf _ v)) rfl)

theorem allPrintable_items (n : Nat) {vs : List Value}
    (h : ∀ v ∈ vs, ∀ c tag, AllPrintable (write c tag v)) :
    AllPrintable (writeItems n vs) := by
  induction vs with
  | nil => exact nofun
  | cons v vs ih =>
    obtain ⟨hv, hvs⟩ := List.forall_mem_cons.1 h
    rw [writeItems_cons]
    exact (allPrintable_pad n).append (((hv _ _).cons rfl).append (ih hvs))

theorem allPrintable_entryText (n : Nat) {k v : Value} (hk : ∀ c tag, AllPrintable (write c tag k))
    (hv : ∀ c tag, AllPrintable (write c tag v)) : AllPrintable (entryText n k v) := by
  rw [entryText]
  split
  · exact (allPrintable_simpleKey k).append ((hv _ _).cons rfl)
  · exact (((hk _ _).cons rfl).append (allPrintable_pad n)).append ((hv _ _).cons rfl)

theorem allPrintable_entries (n : Nat) {es : Entries}
    (h : ∀ e ∈ es, (∀ c tag, AllPrintable (write c tag e.1)) ∧
      ∀ c tag, AllPrintable (write c tag e.2)) :
    AllPrintable (writeEntries n es) := by
  induction es with
  | nil => exact nofun
  | cons e es ih =>
    obtain ⟨he, hes⟩ := List.forall_mem_cons.1 h
    rw [writeEntries_cons]
    exact (allPrintable_pad n).append ((allPrintable_entryText n he.1 he.2).append (ih hes))

/-- **A printed value has printable characters only.** -/
theorem allPrintable_print (v : Value) (c : Column) (tag : Option String) :
    AllPrintable (write c tag v) := by
  induction v using Value.induction generalizing c tag with
  | null | bool | int | float | str =>
    rw [write]
    · exact allPrintable_spacedLeaf c tag _
    all_goals simp
  | seq items ih =>
    cases items with
    | nil =>
      rw [write]
      · exact allPrintable_spacedLeaf c tag _
      all_goals simp
    | cons v vs =>
      obtain ⟨hv, hvs⟩ := List.forall_mem_cons.1 ih
      rw [write]
      exact ((allPrintable_blockStart c tag _).append ((hv _ _).cons rfl)).append
        (allPrintable_items _ hvs)
  | map entries ih =>
    cases entries with
    | nil =>
      rw [write]
      · exact allPrintable_spacedLeaf c tag _
      all_goals simp
    | cons e es =>
      obtain ⟨he, hes⟩ := List.forall_mem_cons.1 ih
      rw [write]
      exact ((allPrintable_blockStart c tag _).append (allPrintable_entryText _ he.1 he.2)).append
        (allPrintable_entries _ hes)
  | tagged name v ih =>
    rw [write]
    exact ih c (some name)

end Value

end TestOrchestrator.Yaml
