import TestOrchestrator.Include
import TestOrchestrator.Proofs.SideBySide
/-!
# Directives in a document

* `Directs v D` says that `D` is a directive of the value `v`: what the directive of a mapping in it
  asks for, and whether that mapping has other entries.
* `Heeds load D` says that a directive can be followed.
* `expandItems_eq_ok_iff`, `expandEntries_eq_ok_iff`: items and entries are expanded one by one.
* `expandValue_isOk_iff`: a value can be expanded just when all its directives can be followed.
* `exists_directs_of_error`: an expansion that fails for another reason than a directive or a merge
  of its own failed to load what some directive names.
-/

namespace TestOrchestrator.Include

open Yaml

/-! ## Directives -/

/-- The entries of a mapping that are no directives. -/
def others (entries : Value.Entries) : Value.Entries := entries.filter fun e => !isDirective e.1

/-- What the directive of a mapping says. -/
structure Directive where
  target : Value
  /-- Whether the mapping has other entries. -/
  shared : Bool

/-- The directives of a value. Nothing under the key of a directive counts. -/
inductive Directs : Value → Directive → Prop
  | here {entries : Value.Entries} {target : Value} (last : target? entries = some target) :
      Directs (.map entries) ⟨target, !(others entries).isEmpty⟩
  | entry {entries : Value.Entries} {e : Value × Value} {D : Directive} (listed : e ∈ entries)
      (other : isDirective e.1 = false) (below : Directs e.2 D) : Directs (.map entries) D
  | item {items : List Value} {v : Value} {D : Directive} (listed : v ∈ items)
      (below : Directs v D) :
      Directs (.seq items) D
  | tagged {name : String} {v : Value} {D : Directive} (below : Directs v D) :
      Directs (.tagged name v) D

/-- A value that is a mapping. -/
def IsMapping (v : Value) : Prop := ∃ entries, v = .map entries

/-- A directive can be followed: it names something that can be loaded, and that is a mapping if
there are other entries to go before its own. -/
def Heeds (load : String → Except IncludeError Value) (D : Directive) : Prop :=
  ∃ name w, D.target = .str name ∧ load name = .ok w ∧ (D.shared = true → IsMapping w)

/-! ## Steps that may fail -/

theorem exists_of_bind_eq_ok {ε α β : Type} {x : Except ε α} {f : α → Except ε β} {b : β}
    (h : (x >>= f) = .ok b) : ∃ a, x = .ok a ∧ f a = .ok b := by
  cases x with
  | error err => cases h
  | ok a => exact ⟨a, rfl, h⟩

theorem cases_of_bind_eq_error {ε α β : Type} {x : Except ε α} {f : α → Except ε β} {err : ε}
    (h : (x >>= f) = .error err) : x = .error err ∨ ∃ a, x = .ok a ∧ f a = .error err := by
  cases x with
  | error err' =>
    cases h
    exact .inl rfl
  | ok a => exact .inr ⟨a, rfl, h⟩

theorem eq_ok_of_toOption {ε α : Type} {x : Except ε α} {a : α} (h : x.toOption = some a) :
    x = .ok a := by
  cases x <;> cases h
  rfl

variable {load : String → Except IncludeError Value} {v w : Value} {entries os : Value.Entries}
  {items ws : List Value} {name : String} {err : IncludeError}

/-! ## Following a directive -/

theorem merged_isOk_iff : (∃ v, merged name w os = .ok v) ↔ (os ≠ [] → IsMapping w) := by
  cases os with
  | nil => simp [merged]
  | cons o os => cases w <;> simp [merged, IsMapping]

theorem follow_isOk_iff {target : Option Value} :
    (∃ v, follow load target os = .ok v) ↔
      ∀ t, target = some t → Heeds load ⟨t, !os.isEmpty⟩ := by
  cases target with
  | none => simp [follow]
  | some t =>
    have hshared : (!os.isEmpty) = true ↔ os ≠ [] := by simp
    constructor
    · rintro ⟨v, hv⟩ t' ht'
      cases Option.some.inj ht'
      cases t <;> try cases hv
      obtain ⟨w, hw, hmerged⟩ := exists_of_bind_eq_ok hv
      exact ⟨_, w, rfl, hw, fun h => merged_isOk_iff.1 ⟨v, hmerged⟩ (hshared.1 h)⟩
    · intro h
      obtain ⟨name, w, ht, hw, hmapping⟩ := h t rfl
      cases ht
      obtain ⟨v, hv⟩ := merged_isOk_iff.2 fun hos => hmapping (hshared.2 hos)
      exact ⟨v, by rw [follow, hw]; exact hv⟩

/-! ## Piece by piece -/

theorem expandItems_eq_ok_iff : expandItems load items = .ok ws ↔
    ∃ parts, List.Forall₂ (fun v part => ∃ w, expandValue load v = .ok w ∧
      part = spliced (isBare v) w) items parts ∧
      ws = parts.flatten := by
  induction items generalizing ws with
  | nil =>
    rw [expandItems]
    constructor
    · intro h
      cases h
      exact ⟨[], .nil, rfl⟩
    · rintro ⟨parts, hparts, rfl⟩
      cases hparts
      rfl
  | cons v items ih =>
    rw [expandItems]
    constructor
    · intro h
      obtain ⟨w, hw, h⟩ := exists_of_bind_eq_ok h
      obtain ⟨ws', hws', h⟩ := exists_of_bind_eq_ok h
      obtain ⟨parts, hparts, rfl⟩ := ih.1 hws'
      cases h
      exact ⟨_, .cons ⟨w, hw, rfl⟩ hparts, rfl⟩
    · rintro ⟨parts, hparts, rfl⟩
      obtain _ | ⟨⟨w, hw, rfl⟩, hparts⟩ := hparts
      rw [hw, ih.2 ⟨_, hparts, rfl⟩]
      rfl

theorem expandEntries_eq_ok_iff : expandEntries load entries = .ok os ↔
    List.Forall₂ (fun e o => o.1 = e.1 ∧ expandValue load e.2 = .ok o.2) (others entries) os := by
  induction entries generalizing os with
  | nil =>
    rw [expandEntries, others, List.filter_nil, List.forall₂_nil_left_iff]
    exact ⟨fun h => by cases h; rfl, fun h => by rw [h]⟩
  | cons e entries ih =>
    rw [expandEntries]
    cases hk : isDirective e.1 with
    | true => rw [if_pos rfl, others, List.filter_cons_of_neg (by simp [hk]), ih, others]
    | false =>
      rw [if_neg Bool.false_ne_true, others, List.filter_cons_of_pos (by simp [hk]),
        List.forall₂_cons_left_iff]
      constructor
      · intro h
        obtain ⟨w, hw, h⟩ := exists_of_bind_eq_ok h
        obtain ⟨os', hos', h⟩ := exists_of_bind_eq_ok h
        cases h
        exact ⟨(e.1, w), os', ⟨rfl, hw⟩, ih.1 hos', rfl⟩
      · rintro ⟨⟨k, w⟩, os', ⟨rfl, hw⟩, hos', rfl⟩
        dsimp only at hw
        rw [hw, ih.2 hos']
        rfl

/-- What holds of a value and of the items of each sequence holds of the items that it stands
for. -/
theorem forall_spliced {P : Value → Prop} (hseq : ∀ items, P (.seq items) → ∀ v ∈ items, P v)
    (bare : Bool) (h : P w) :
    ∀ v ∈ spliced bare w, P v := by
  cases w with
  | seq items =>
    cases bare with
    | true => exact hseq items h
    | false => exact List.forall_mem_singleton.2 h
  | _ => exact List.forall_mem_singleton.2 h

/-! ## Expansion -/

theorem expandItems_isOk_iff :
    (∃ ws, expandItems load items = .ok ws) ↔ ∀ v ∈ items, ∃ w, expandValue load v = .ok w := by
  induction items with
  | nil => simp [expandItems]
  | cons v items ih =>
    rw [List.forall_mem_cons, ← ih, expandItems]
    constructor
    · rintro ⟨ws, h⟩
      obtain ⟨w, hw, h⟩ := exists_of_bind_eq_ok h
      obtain ⟨ws', hws', -⟩ := exists_of_bind_eq_ok h
      exact ⟨⟨w, hw⟩, ws', hws'⟩
    · rintro ⟨⟨w, hw⟩, ws, hws⟩
      exact ⟨spliced (isBare v) w ++ ws, by rw [hw, hws]; rfl⟩

theorem expandEntries_isOk_iff :
    (∃ ws, expandEntries load entries = .ok ws) ↔
      ∀ e ∈ entries, isDirective e.1 = false → ∃ w, expandValue load e.2 = .ok w := by
  induction entries with
  | nil => simp [expandEntries]
  | cons e entries ih =>
    rw [List.forall_mem_cons, ← ih, expandEntries]
    cases hk : isDirective e.1 with
    | true => simp
    | false =>
      constructor
      · rintro ⟨ws, h⟩
        obtain ⟨w, hw, h⟩ := exists_of_bind_eq_ok h
        obtain ⟨ws', hws', -⟩ := exists_of_bind_eq_ok h
        exact ⟨fun _ => ⟨w, hw⟩, ws', hws'⟩
      · rintro ⟨hw, ws, hws⟩
        obtain ⟨w, hw⟩ := hw rfl
        exact ⟨(e.1, w) :: ws, by rw [hw, hws]; rfl⟩

/-- The keys of the entries that are left stay in order. -/
theorem keys_of_expandEntries (h : expandEntries load entries = .ok os) :
    os.map Prod.fst = (others entries).map Prod.fst := by
  refine Eq.symm ?_
  rw [← List.forall₂_eq_eq_eq, List.forall₂_map_left_iff, List.forall₂_map_right_iff]
  exact (expandEntries_eq_ok_iff.1 h).imp fun _ _ hpair => hpair.1.symm

theorem isEmpty_of_expandEntries (h : expandEntries load entries = .ok os) :
    os.isEmpty = (others entries).isEmpty := by
  rw [← List.isEmpty_map (f := Prod.fst), keys_of_expandEntries h, List.isEmpty_map]

/-- **A value can be expanded** just when all its directives can be followed. -/
theorem expandValue_isOk_iff (load : String → Except IncludeError Value) (v : Value) :
    (∃ w, expandValue load v = .ok w) ↔ ∀ D, Directs v D → Heeds load D := by
  have hleaf : ∀ {v : Value}, expandValue load v = .ok v → (∀ D, ¬Directs v D) →
      ((∃ w, expandValue load v = .ok w) ↔ ∀ D, Directs v D → Heeds load D) :=
    fun hv hnone => ⟨fun _ D hD => absurd hD (hnone D), fun _ => ⟨_, hv⟩⟩
  induction v using Value.induction with
  | null => exact hleaf rfl nofun
  | bool b => exact hleaf rfl nofun
  | int n => exact hleaf rfl nofun
  | float x => exact hleaf rfl nofun
  | str s => exact hleaf rfl nofun
  | seq items ih =>
    rw [expandValue]
    constructor
    · rintro ⟨w, h⟩ D hD
      obtain ⟨ws, hws, -⟩ := exists_of_bind_eq_ok h
      cases hD with
      | item listed below =>
        exact (ih _ listed).1 (expandItems_isOk_iff.1 ⟨ws, hws⟩ _ listed) D below
    · intro h
      obtain ⟨ws, hws⟩ := expandItems_isOk_iff.2 fun v hv =>
        (ih v hv).2 fun D hD => h D (.item hv hD)
      exact ⟨.seq ws, by rw [hws]; rfl⟩
  | map entries ih =>
    rw [expandValue]
    constructor
    · rintro ⟨w, h⟩ D hD
      obtain ⟨os, hos, h⟩ := exists_of_bind_eq_ok h
      cases hD with
      | here last =>
        rw [← isEmpty_of_expandEntries hos]
        exact follow_isOk_iff.1 ⟨w, h⟩ _ last
      | entry listed other below =>
        exact (ih _ listed).2.1 (expandEntries_isOk_iff.1 ⟨os, hos⟩ _ listed other) D below
    · intro h
      obtain ⟨os, hos⟩ := expandEntries_isOk_iff.2 fun e he hk =>
        (ih e he).2.2 fun D hD => h D (.entry he hk hD)
      obtain ⟨w, hw⟩ : ∃ w, follow load (target? entries) os = .ok w := by
        refine follow_isOk_iff.2 fun t ht => ?_
        rw [isEmpty_of_expandEntries hos]
        exact h _ (.here ht)
      exact ⟨w, by rw [hos]; exact hw⟩
  | tagged name v ih =>
    rw [expandValue]
    constructor
    · rintro ⟨w, h⟩ D hD
      obtain ⟨w', hw', -⟩ := exists_of_bind_eq_ok h
      cases hD with
      | tagged below => exact ih.1 ⟨w', hw'⟩ D below
    · intro h
      obtain ⟨w, hw⟩ := ih.2 fun D hD => h D (.tagged hD)
      exact ⟨.tagged name w, by rw [hw]; rfl⟩

/-! ## Failures -/

/-- A failure that a mapping makes by itself, without loading anything. -/
def IsFault : IncludeError → Prop
  | .invalidDirective => True
  | .merge _ => True
  | _ => False

theorem cases_of_follow_eq_error {target : Option Value} (h : follow load target os = .error err) :
    IsFault err ∨ ∃ name, target = some (.str name) ∧ load name = .error err := by
  cases target with
  | none => cases h
  | some t =>
    cases t with
    | str name =>
      rcases cases_of_bind_eq_error h with h | ⟨w, -, h⟩
      · exact .inr ⟨name, rfl, h⟩
      · unfold merged at h
        split at h
        · cases h
        · cases w <;> cases h <;> exact .inl trivial
    | _ =>
      cases h
      exact .inl trivial

theorem exists_of_expandItems_eq_error (h : expandItems load items = .error err) :
    ∃ v ∈ items, expandValue load v = .error err := by
  induction items with
  | nil => cases h
  | cons v items ih =>
    rw [expandItems] at h
    rcases cases_of_bind_eq_error h with h | ⟨w, -, h⟩
    · exact ⟨v, List.mem_cons_self, h⟩
    · rcases cases_of_bind_eq_error h with h | ⟨ws, -, h⟩
      · obtain ⟨v', hv', h⟩ := ih h
        exact ⟨v', List.mem_cons_of_mem v hv', h⟩
      · cases h

theorem exists_of_expandEntries_eq_error (h : expandEntries load entries = .error err) :
    ∃ e ∈ entries, isDirective e.1 = false ∧ expandValue load e.2 = .error err := by
  induction entries with
  | nil => cases h
  | cons e entries ih =>
    have hrest : expandEntries load entries = .error err →
        ∃ e' ∈ e :: entries, isDirective e'.1 = false ∧ expandValue load e'.2 = .error err := by
      intro h
      obtain ⟨e', he', h⟩ := ih h
      exact ⟨e', List.mem_cons_of_mem e he', h⟩
    rw [expandEntries] at h
    cases hk : isDirective e.1 with
    | true =>
      rw [if_pos hk] at h
      exact hrest h
    | false =>
      rw [if_neg (by simp [hk])] at h
      rcases cases_of_bind_eq_error h with h | ⟨w, -, h⟩
      · exact ⟨e, List.mem_cons_self, hk, h⟩
      · rcases cases_of_bind_eq_error h with h | ⟨ws, -, h⟩
        · exact hrest h
        · cases h

/-- **An expansion that fails** without a fault of its own failed to load what some directive
names. -/
theorem exists_directs_of_error (h : expandValue load v = .error err) :
    IsFault err ∨ ∃ D name, Directs v D ∧ D.target = .str name ∧ load name = .error err := by
  induction v using Value.induction with
  | seq items ih =>
    rw [expandValue] at h
    rcases cases_of_bind_eq_error h with h | ⟨ws, -, h⟩
    · obtain ⟨v, hv, h⟩ := exists_of_expandItems_eq_error h
      exact (ih v hv h).imp_right fun ⟨D, name, hD, hname⟩ => ⟨D, name, .item hv hD, hname⟩
    · cases h
  | map entries ih =>
    rw [expandValue] at h
    rcases cases_of_bind_eq_error h with h | ⟨os, -, h⟩
    · obtain ⟨e, he, hk, h⟩ := exists_of_expandEntries_eq_error h
      exact ((ih e he).2 h).imp_right fun ⟨D, name, hD, hname⟩ => ⟨D, name, .entry he hk hD, hname⟩
    · exact (cases_of_follow_eq_error h).imp_right fun ⟨name, htarget, hload⟩ =>
        ⟨_, name, .here htarget, rfl, hload⟩
  | tagged name v ih =>
    rw [expandValue] at h
    rcases cases_of_bind_eq_error h with h | ⟨w, -, h⟩
    · exact (ih h).imp_right fun ⟨D, name, hD, hname⟩ => ⟨D, name, .tagged hD, hname⟩
    · cases h
  | _ => cases h

end TestOrchestrator.Include
