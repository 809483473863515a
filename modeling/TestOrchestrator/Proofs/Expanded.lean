import TestOrchestrator.Proofs.OpenFiles
import TestOrchestrator.Proofs.Setting
import TestOrchestrator.Proofs.Unchanged
/-!
# Expanded values

What expansion gives has no directive left, wherever its parts come from.

* `Free v` says that a value has no directives. The lemmas beside it go through the shapes of a
  value.
* `free_merged` and `free_expandValue`: nothing that expansion puts together brings a directive
  back.
* `expandOn_of_free`: where there is no directive, nothing is opened.
* `expandValue_expanded`: expanding once is enough, and what comes out no longer depends on files.
-/

namespace TestOrchestrator.Include

open Yaml

variable {v w k : Value} {entries os : Value.Entries} {items : List Value} {name : String}

/-! ## Values without directives -/

/-- A value without directives. -/
def Free (v : Value) : Prop := ∀ D, ¬Directs v D

theorem target?_eq_none_iff : target? entries = none ↔ ∀ e ∈ entries, isDirective e.1 = false := by
  simp [target?]

theorem free_seq_iff : Free (.seq items) ↔ ∀ v ∈ items, Free v := by
  constructor
  · intro h v hv D hD
    exact h D (.item hv hD)
  · rintro h D (_ | _ | ⟨hv, hD⟩)
    exact h _ hv D hD

theorem free_tagged_iff : Free (.tagged name v) ↔ Free v := by
  constructor
  · intro h D hD
    exact h D (.tagged hD)
  · rintro h D (_ | _ | _ | hD)
    exact h D hD

/-- An entry without directives: neither its key nor its value has one. -/
def FreeEntry (e : Value × Value) : Prop := isDirective e.1 = false ∧ Free e.2

theorem free_map_iff : Free (.map entries) ↔ ∀ e ∈ entries, FreeEntry e := by
  constructor
  · intro h
    have hnone : target? entries = none := by
      cases htarget : target? entries with
      | none => rfl
      | some target => exact absurd (.here htarget) (h _)
    have hkeys := target?_eq_none_iff.1 hnone
    exact fun e he => ⟨hkeys e he, fun D hD => h D (.entry he (hkeys e he) hD)⟩
  · intro h D hD
    cases hD with
    | here last =>
      rw [target?_eq_none_iff.2 fun e he => (h e he).1] at last
      cases last
    | entry listed other below => exact (h _ listed).2 D below

/-! ## Putting values together -/

/-- Other entries that go before those of a document bring no directive into it. -/
theorem free_merged {included : Value} (hincluded : Free included) (hos : ∀ e ∈ os, FreeEntry e)
    (h : merged name included os = .ok w) : Free w := by
  unfold merged at h
  split at h
  · cases h
    exact hincluded
  · cases included with
    | map entries =>
      cases h
      exact free_map_iff.2 (Value.forall_putAll (K := (isDirective · = false)) hos
        (free_map_iff.1 hincluded))
    | _ => cases h

/-! ## Expansion -/

section

variable {load : String → Except IncludeError Value}

theorem free_follow {target : Option Value} (hload : ∀ name w, load name = .ok w → Free w)
    (hos : ∀ e ∈ os, FreeEntry e) (h : follow load target os = .ok w) : Free w := by
  cases target with
  | none =>
    cases h
    exact free_map_iff.2 hos
  | some t =>
    cases t with
    | str name =>
      obtain ⟨included, hincluded, h⟩ := exists_of_bind_eq_ok h
      exact free_merged (hload name included hincluded) hos h
    | _ => cases h

theorem free_expandItems {ws : List Value}
    (ih : ∀ v ∈ items, ∀ w, expandValue load v = .ok w → Free w)
    (h : expandItems load items = .ok ws) :
    ∀ w ∈ ws, Free w := by
  obtain ⟨parts, hparts, rfl⟩ := expandItems_eq_ok_iff.1 h
  intro x hx
  obtain ⟨part, hpart, hx⟩ := List.mem_flatten.1 hx
  obtain ⟨v, hv, w, hw, rfl⟩ := exists_of_mem_right hparts hpart
  exact forall_spliced (fun _ => free_seq_iff.1) _ (ih v hv w hw) x hx

theorem freeEntry_expandEntries
    (ih : ∀ e ∈ entries, ∀ w, expandValue load e.2 = .ok w → Free w)
    (h : expandEntries load entries = .ok os) : ∀ e ∈ os, FreeEntry e := by
  intro o ho
  obtain ⟨e, he, hkey, hvalue⟩ := exists_of_mem_right (expandEntries_eq_ok_iff.1 h) ho
  obtain ⟨hlisted, hother⟩ := List.mem_filter.1 he
  rw [FreeEntry, hkey]
  exact ⟨by simpa using hother, ih e hlisted o.2 hvalue⟩

theorem free_expandValue (hload : ∀ name w, load name = .ok w → Free w)
    (h : expandValue load v = .ok w) : Free w := by
  induction v using Value.induction generalizing w with
  | null | bool | int | float | str =>
    cases h
    exact nofun
  | seq items ih =>
    obtain ⟨ws, hws, h⟩ := exists_of_bind_eq_ok h
    cases h
    exact free_seq_iff.2 (free_expandItems (fun v hv _ hw => ih v hv hw) hws)
  | map entries ih =>
    rw [expandValue] at h
    obtain ⟨os, hos, h⟩ := exists_of_bind_eq_ok h
    exact free_follow hload (freeEntry_expandEntries (fun e he _ hw => (ih e he).2 hw) hos) h
  | tagged name v ih =>
    obtain ⟨w', hw', h⟩ := exists_of_bind_eq_ok h
    cases h
    exact free_tagged_iff.2 (ih hw')

end

/-- What is loaded was expanded, however deep. -/
theorem free_load {fs : FileSystem} {dirs : List Path} (levels : Nat) (files : List Path)
    (h : load fs dirs levels files name = .ok w) : Free w := by
  induction levels generalizing files name w with
  | zero => cases h
  | succ levels ih =>
    obtain ⟨file, doc, -, -, hdoc⟩ := load_succ_eq_ok_iff.1 h
    exact free_expandValue (fun _ _ hload => ih _ hload) hdoc

/-! ## Expanding again -/

section

variable {fs : FileSystem} {dirs : List Path}

theorem expandItemsOn_of_free {desk : Desk}
    (h : ∀ v ∈ items, (expandOn fs dirs v).run desk = some (.ok v, desk)) :
    (expandItemsOn fs dirs items).run desk = some (.ok items, desk) := by
  induction items with
  | nil =>
    rw [expandItemsOn]
    rfl
  | cons v vs ih =>
    obtain ⟨hv, hvs⟩ := List.forall_mem_cons.1 h
    rw [expandItemsOn, StateT.run_bind, hv]
    simp only [Option.bind_eq_bind, Option.bind_some, StateT.run_bind, ih hvs, spliced_isBare]
    rfl

theorem expandEntriesOn_of_free {desk : Desk}
    (h : ∀ e ∈ entries, isDirective e.1 = false ∧
      (expandOn fs dirs e.2).run desk = some (.ok e.2, desk)) :
    (expandEntriesOn fs dirs entries).run desk = some (.ok entries, desk) := by
  induction entries with
  | nil =>
    rw [expandEntriesOn]
    rfl
  | cons e es ih =>
    obtain ⟨⟨hkey, hvalue⟩, hes⟩ := List.forall_mem_cons.1 h
    rw [expandEntriesOn, if_neg (by simp [hkey]), StateT.run_bind, hvalue]
    simp only [Option.bind_eq_bind, Option.bind_some, StateT.run_bind, ih hes]
    rfl

/-- Where there is no directive, no file is looked for, and those that are open make no
difference. -/
theorem expandOn_of_free (h : Free v) (desk : Desk) :
    (expandOn fs dirs v).run desk = some (.ok v, desk) := by
  induction v using Value.induction with
  | null | bool | int | float | str =>
    rw [expandOn]
    · rfl
    all_goals simp
  | seq items ih =>
    rw [expandOn, StateT.run_bind, expandItemsOn_of_free fun v hv =>
      ih v hv (free_seq_iff.1 h v hv)]
    rfl
  | map entries ih =>
    have hentries := free_map_iff.1 h
    rw [expandOn, StateT.run_bind,
      expandEntriesOn_of_free fun e he => ⟨(hentries e he).1, (ih e he).2 (hentries e he).2⟩]
    simp only [Option.bind_eq_bind, Option.bind_some, target?_eq_none_iff.2 fun e he =>
      (hentries e he).1]
    rfl
  | tagged name v ih =>
    rw [expandOn, StateT.run_bind, ih (free_tagged_iff.1 h)]
    rfl

end

/-- **Expanding once is enough.** Whatever a value is expanded to has no directive in it, so that it
is expanded to itself: with any other files, in any other directories, and whatever files are
open. -/
theorem expandValue_expanded {fs : FileSystem} {dirs files : List Path} {levels : Nat}
    (h : expandValue (load fs dirs levels files) v = .ok w) :
    Free w ∧ ∀ (fs' : FileSystem) (dirs' : List Path),
      (∀ levels' files', expandValue (load fs' dirs' levels' files') w = .ok w) ∧
        ∀ desk, (expandOn fs' dirs' w).run desk = some (.ok w, desk) := by
  have hfree : Free w := free_expandValue (fun _ _ hload => free_load levels files hload) h
  exact ⟨hfree, fun fs' dirs' => ⟨fun _ _ => expandValue_eq_self hfree, expandOn_of_free hfree⟩⟩

/-- Some files by their names, all in one directory. -/
def shelf (files : List (OsText × String)) : FileSystem where
  cwd := ⟨"/"⟩
  isFileAt s := (s.names.getLast?.bind fun name => files.lookup name).isSome
  isDirAt _ := false
  canonicalAt s := .ok ⟨OsText.ofText "/shelf/" ++ s.names.getLastD ""⟩
  readAt s :=
    match s.names.getLast?.bind fun name => files.lookup name with
    | some text => .ok (Text.Utf8.encode text.toList)
    | none => .error .notFound

/-- Files that are included as a mapping with other keys, under a tag, and among the items of a
sequence. -/
def shelved : FileSystem := shelf
  [("base.yaml", "name: base\nsize: !unit {include: unit.yaml}\n"), ("unit.yaml", "3\n"),
    ("list.yaml", "[one, two]\n")]

/-- A text that includes them. -/
def shelvedFile : List UInt8 := Text.Utf8.encode
  "include: base.yaml\nextra: [{include: list.yaml}, three]\nname: own\n".toList

/-- What it is expanded to. -/
def shelvedText : List Char := "name: own\nsize: !unit 3\nextra:\n- one\n- two\n- three\n".toList

theorem expandValue_expanded_of_shelved :
    ∃ v w, Value.ofBytes? shelvedFile = some v ∧
      expandValue (load shelved [⟨"/shelf"⟩] maxDepth []) v = .ok w ∧ w.render? = some shelvedText ∧
        Free w ∧ ∀ (fs' : FileSystem) (dirs' : List Path),
          (∀ levels' files', expandValue (load fs' dirs' levels' files') w = .ok w) ∧
            ∀ desk, (expandOn fs' dirs' w).run desk = some (.ok w, desk) := by
  have hread : (Value.ofBytes? shelvedFile).any (fun v =>
      (expandValue (load shelved [⟨"/shelf"⟩] maxDepth []) v).toOption.any fun w =>
        decide (w.render? = some shelvedText)) = true := by decide +kernel
  obtain ⟨v, hv, hread⟩ := (Option.any_eq_true _ _).1 hread
  obtain ⟨w, hw, htext⟩ := (Option.any_eq_true _ _).1 hread
  have hw' : expandValue (load shelved [⟨"/shelf"⟩] maxDepth []) v = .ok w := by
    cases hresult : expandValue (load shelved [⟨"/shelf"⟩] maxDepth []) v with
    | error err =>
      rw [hresult] at hw
      cases hw
    | ok w' =>
      rw [hresult] at hw
      cases hw
      rfl
  exact ⟨v, w, hv, hw', of_decide_eq_true htext, expandValue_expanded hw'⟩

end TestOrchestrator.Include
