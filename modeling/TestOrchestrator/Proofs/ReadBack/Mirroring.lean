import TestOrchestrator.Proofs.ReadBack.Scalars
/-!
# What is printed mirrors the document

* `Document.scalars` are the scalars of a document and `Word.isKept` says which are printed in their
  own words.
* `Value.mirrors_of_read`: if all of them are, the tree of a printed value mirrors the node that the
  value was read from.
* `Value.readable_of_hasForm`: what can be written and has tags with plain names can be read.
* `Definition.ofYaml?_render`: then the definition in what is printed is the one in the document.
-/

namespace TestOrchestrator

namespace Yaml

/-! ## The scalars of a document -/

/-- A scalar of a document. -/
structure Word where
  tag : Option (List UInt8)
  style : Style
  text : List Char

namespace Node

mutual

/-- The scalars of a tree. -/
def scalars : Node → List Word
  | scalar p style text => [⟨p.tag, style, text⟩]
  | sequence _ items => itemScalars items
  | mapping _ entries => entryScalars entries
  | aliasTo _ => []

/-- The scalars of the items of a sequence. -/
def itemScalars : List Node → List Word
  | [] => []
  | n :: ns => scalars n ++ itemScalars ns

/-- The scalars of the entries of a mapping. -/
def entryScalars : List (Node × Node) → List Word
  | [] => []
  | (k, v) :: es => scalars k ++ scalars v ++ entryScalars es

end

theorem scalars_subset_items {n : Node} {ns : List Node} (h : n ∈ ns) :
    n.scalars ⊆ itemScalars ns := by
  induction ns with
  | nil => cases h
  | cons m ns ih =>
    rw [itemScalars]
    rcases List.mem_cons.1 h with rfl | h
    · exact List.subset_append_left _ _
    · exact List.Subset.trans (ih h) (List.subset_append_right _ _)

theorem scalars_subset_entries {e : Node × Node} {es : List (Node × Node)} (h : e ∈ es) :
    e.1.scalars ⊆ entryScalars es ∧ e.2.scalars ⊆ entryScalars es := by
  induction es with
  | nil => cases h
  | cons f es ih =>
    rw [entryScalars]
    rcases List.mem_cons.1 h with rfl | h
    · exact ⟨List.Subset.trans (List.subset_append_left _ _) (List.subset_append_left _ _),
        List.Subset.trans (List.subset_append_right _ _) (List.subset_append_left _ _)⟩
    · exact ⟨List.Subset.trans (ih h).1 (List.subset_append_right _ _),
        List.Subset.trans (ih h).2 (List.subset_append_right _ _)⟩

end Node

/-- The scalars of a document; those of a node with an anchor are listed again. -/
def Document.scalars (d : Document) : List Word := d.root.scalars ++ d.anchors.flatMap fun e =>
  e.2.scalars

/-- Whether a scalar is printed in its own words. -/
def Word.isKept (w : Word) : Bool := Value.keepsWords w.tag w.style w.text

open Fields Reading

namespace Value

variable {d : Document} {n m : Node} {v : Value} {depth s s' : Nat}

theorem forall₂_of_run_mapM {α β : Type} {f : α → Reading β} {P : α → β → Prop} {xs : List α}
    {ys : List β} {s s' : Nat}
    (h : (xs.mapM f).run s = some (ys, s'))
    (hf : ∀ x ∈ xs, ∀ t y t', (f x).run t = some (y, t') → P x y) :
    List.Forall₂ P xs ys := by
  induction xs generalizing ys s with
  | nil =>
    cases h
    exact .nil
  | cons x xs ih =>
    rw [List.mapM_cons] at h
    obtain ⟨y, t, hy, h⟩ := exists_of_run_bind h
    obtain ⟨zs, u, hzs, h⟩ := exists_of_run_bind h
    cases h
    exact .cons (hf x List.mem_cons_self _ _ _ hy) (ih hzs fun z hz =>
      hf z (List.mem_cons_of_mem _ hz))

theorem itemNodes_eq (vs : List Value) : itemNodes vs = vs.map (node none) := by
  induction vs with
  | nil => rfl
  | cons v vs ih => rw [itemNodes, ih, List.map_cons]

theorem entryNodes_eq (es : Entries) : entryNodes es = es.map fun e =>
  (e.1.node none, e.2.node none) := by
  induction es with
  | nil => rfl
  | cons e es ih => rw [entryNodes, ih, List.map_cons]

theorem scalars_of_target? (hd : ∀ w ∈ d.scalars, w.isKept = true)
    (hn : ∀ w ∈ n.scalars, w.isKept = true)
    (h : d.target? n = some m) : ∀ w ∈ m.scalars, w.isKept = true := by
  cases n with
  | aliasTo a =>
    intro w hw
    rw [Document.target?, Document.anchor?] at h
    obtain ⟨before, behind, hanchors, -⟩ := List.lookup_eq_some_iff.1 h
    have hmem : (a, m) ∈ d.anchors := by simp [hanchors]
    exact hd w (List.mem_append_right _ (List.mem_flatMap.2 ⟨(a, m), hmem, hw⟩))
  | scalar | sequence | mapping =>
    cases h
    exact hn

/-- What is read from a node. -/
theorem read_cases (h : (read d depth n).run s = some (v, s')) :
    (∃ p style cs, d.target? n = some (.scalar p style cs) ∧ ofScalar? p.tag style cs = some v) ∨
    (∃ p items k vs t t', d.target? n = some (.sequence p items) ∧ depth = k + 1 ∧
      (items.mapM (read d k)).run t = some (vs, t') ∧
        v = withTag (p.tag.bind Tag.name?) (.seq vs)) ∨
    ∃ p entries k es t t', d.target? n = some (.mapping p entries) ∧ depth = k + 1 ∧
      (entries.mapM fun e : Node × Node => do return (← read d k e.1, ← read d k e.2)).run t =
        some (es, t') ∧
        distinctKeys es = true ∧ v = withTag (p.tag.bind Tag.name?) (.map es) := by
  rw [read] at h
  obtain ⟨m, t, hm, h⟩ := exists_of_run_bind h
  have htarget := Document.target?_of_follow hm
  cases m with
  | aliasTo => cases h
  | scalar p style cs =>
    dsimp only at h
    split at h
    · cases h
      exact .inl ⟨p, style, cs, htarget, by assumption⟩
    · cases h
  | sequence p items =>
    cases depth with
    | zero => cases h
    | succ depth =>
      obtain ⟨vs, t', hvs, h⟩ := exists_of_run_bind h
      cases h
      exact .inr (.inl ⟨p, items, depth, vs, t, _, htarget, rfl, hvs, rfl⟩)
  | mapping p entries =>
    cases depth with
    | zero => cases h
    | succ depth =>
      obtain ⟨es, t', hes, h⟩ := exists_of_run_bind h
      split at h
      · cases h
        exact .inr (.inr ⟨p, entries, depth, es, t, _, htarget, rfl, hes, by assumption, rfl⟩)
      · cases h

/-- **The tree of a value mirrors the node that it was read from.** -/
theorem mirrors_of_read (hd : ∀ w ∈ d.scalars, w.isKept = true)
    (hn : ∀ w ∈ n.scalars, w.isKept = true)
    (h : (read d depth n).run s = some (v, s')) : Mirrors d n (v.node none) := by
  induction depth using Nat.strongRecOn generalizing n v s s' with
  | _ depth ih =>
    rcases read_cases h with ⟨p, style, cs, htarget, hv⟩ | ⟨p, items, k, vs, t, t', htarget, rfl,
      hvs, rfl⟩ |
        ⟨p, entries, k, es, t, t', htarget, rfl, hes, -, rfl⟩
    · have hkept := scalars_of_target? hd hn htarget ⟨p.tag, style, cs⟩ List.mem_cons_self
      exact mirrors_scalar htarget hkept hv
    · have hkept := scalars_of_target? hd hn htarget
      rw [node_withTag, node, itemNodes_eq]
      refine .sequence htarget (List.forall₂_map_right_iff.2
        (forall₂_of_run_mapM hvs fun m hm u w u' hw => ?_))
      exact ih k (Nat.lt_succ_self k) (fun x hx => hkept x (Node.scalars_subset_items hm hx)) hw
    · have hkept := scalars_of_target? hd hn htarget
      rw [node_withTag, node, entryNodes_eq]
      refine .mapping htarget (List.forall₂_map_right_iff.2
        (forall₂_of_run_mapM hes fun e he u f u' hf => ?_))
      obtain ⟨key, u₁, hkey, hf⟩ := exists_of_run_bind hf
      obtain ⟨value, u₂, hvalue, hf⟩ := exists_of_run_bind hf
      cases hf
      have hsubset := Node.scalars_subset_entries he
      exact .intro (ih k (Nat.lt_succ_self k) (fun x hx => hkept x (hsubset.1 hx)) hkey)
        (ih k (Nat.lt_succ_self k) (fun x hx => hkept x (hsubset.2 hx)) hvalue)

/-! ## Values that can be read back -/

mutual

/-- The names of the tags in a value. -/
def tagNames : Value → List String
  | tagged name v => name :: tagNames v
  | seq items => itemTagNames items
  | map entries => entryTagNames entries
  | _ => []

/-- The names of the tags in the items of a sequence. -/
def itemTagNames : List Value → List String
  | [] => []
  | v :: vs => tagNames v ++ itemTagNames vs

/-- The names of the tags in the entries of a mapping. -/
def entryTagNames : Entries → List String
  | [] => []
  | (k, v) :: es => tagNames k ++ tagNames v ++ entryTagNames es

end

theorem itemsHaveForm_iff {vs : List Value} : itemsHaveForm vs = true ↔ ∀ v ∈ vs,
    hasForm false v = true := by
  induction vs with
  | nil => simp [itemsHaveForm]
  | cons v vs ih => simp [itemsHaveForm, ih]

theorem entriesHaveForm_iff {es : Entries} :
    entriesHaveForm es = true ↔ ∀ e ∈ es, hasForm false e.1 = true ∧ hasForm false e.2 = true := by
  induction es with
  | nil => simp [entriesHaveForm]
  | cons e es ih => simp [entriesHaveForm, ih, and_assoc]

theorem mem_itemTagNames {name : String} {vs : List Value} (hv : v ∈ vs)
    (hname : name ∈ v.tagNames) :
    name ∈ itemTagNames vs := by
  induction vs with
  | nil => cases hv
  | cons w vs ih =>
    rw [itemTagNames, List.mem_append]
    rcases List.mem_cons.1 hv with rfl | hv
    · exact .inl hname
    · exact .inr (ih hv)

theorem mem_entryTagNames {name : String} {e : Value × Value} {es : Entries} (he : e ∈ es)
    (hname : name ∈ e.1.tagNames ∨ name ∈ e.2.tagNames) : name ∈ entryTagNames es := by
  induction es with
  | nil => cases he
  | cons f es ih =>
    rw [entryTagNames, List.mem_append, List.mem_append]
    rcases List.mem_cons.1 he with rfl | he
    · exact .inl hname
    · exact .inr (ih he)

/-- **A value that has a form can be read back** if its tags have plain names. -/
theorem readable_of_hasForm {under : Bool} (h : hasForm under v = true)
    (hnames : ∀ name ∈ v.tagNames, Token.PlainName name) : Readable under v := by
  induction v using Value.induction generalizing under with
  | null | bool | int | float | str => exact .leaf rfl
  | seq items ih =>
    cases items with
    | nil => exact .leaf rfl
    | cons v vs =>
      rw [hasForm, itemsHaveForm_iff] at h
      rw [tagNames] at hnames
      exact .seq fun w hw => ih w hw (h w hw) fun name hname =>
        hnames name (mem_itemTagNames hw hname)
  | map entries ih =>
    cases entries with
    | nil => exact .leaf rfl
    | cons e es =>
      simp only [hasForm, Bool.and_eq_true, entriesHaveForm_iff] at h
      rw [tagNames] at hnames
      exact .map
        (fun f hf => (ih f hf).1 (h.2 f hf).1 fun name hname =>
          hnames name (mem_entryTagNames hf (.inl hname)))
        (fun f hf => (ih f hf).2 (h.2 f hf).2 fun name hname =>
          hnames name (mem_entryTagNames hf (.inr hname)))
  | tagged name v ih =>
    rw [hasForm, Bool.and_eq_true, Bool.not_eq_true'] at h
    obtain ⟨rfl, h⟩ := h
    exact .tagged (hnames name List.mem_cons_self) (ih h fun n hn =>
      hnames n (List.mem_cons_of_mem _ hn))

end Value

end Yaml

open Yaml

/-- **A definition is read back from the printed value of its document.** -/
theorem Definition.ofYaml?_render {d : Document} {v : Value} {r : Definition} {text : List Char}
    (hv : Value.ofDocument? d = some v) (hr : Definition.ofDocument? d = some r)
    (hkept : ∀ w ∈ d.scalars, w.isKept = true) (hnames : ∀ name ∈ v.tagNames, Token.PlainName name)
    (htext : v.render? = some text) : Definition.ofYaml? (Text.Utf8.encode text) = some r := by
  rw [Value.render?] at htext
  split at htext
  · rename_i hform
    cases htext
    obtain ⟨⟨v, s⟩, hrun, rfl⟩ := Option.map_eq_some_iff.1 hv
    have hroot : ∀ w ∈ d.root.scalars, w.isKept = true :=
      fun w hw => hkept w (List.mem_append_left _ hw)
    have hmirrors := Value.mirrors_of_read hkept hroot hrun
    rw [ofYaml?, Document.ofBytes?_print (Value.readable_of_hasForm hform hnames)]
    exact ofDocument?_of_mirrors hmirrors hr
  · cases htext

end TestOrchestrator
