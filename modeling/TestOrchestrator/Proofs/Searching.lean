import Mathlib.Data.List.Forall2
import TestOrchestrator.FileSystem.Tree
import TestOrchestrator.Proofs.Inclusion
/-!
# Searching in other directories

The directories of an include path matter only through where they find files.

* `expandValue_mono`, `load_mono`: an expansion that succeeds does so with every load that finds
  what the first one found, and every include path that finds the same files.
* `load_congr`, `expand_congr`: include paths that find the same files, and none for the same names,
  cannot be told apart.
* `expand_append`: more directories at the end change nothing about a text that can be expanded.
-/

namespace TestOrchestrator.Include

open Yaml

variable {loader loader' : String → Except IncludeError Value} {v w : Value}
  {entries os : Value.Entries}
  {items ws : List Value} {fs : FileSystem} {dirs dirs' files : List Path} {name : String}
  {levels : Nat}

/-! ## Loads that find more -/

/-- What one load finds, another one finds too. -/
def FindsAll (loader loader' : String → Except IncludeError Value) : Prop :=
  ∀ name w, loader name = .ok w → loader' name = .ok w

theorem follow_mono (hload : FindsAll loader loader') {target : Option Value}
    (h : follow loader target os = .ok w) :
    follow loader' target os = .ok w := by
  cases target with
  | none => exact h
  | some t =>
    cases t with
    | str name =>
      obtain ⟨included, hincluded, h⟩ := exists_of_bind_eq_ok h
      rw [follow, hload name included hincluded]
      exact h
    | _ => cases h

theorem expandItems_mono (ih : ∀ v ∈ items, ∀ w, expandValue loader v = .ok w →
    expandValue loader' v = .ok w)
    (h : expandItems loader items = .ok ws) : expandItems loader' items = .ok ws := by
  obtain ⟨parts, hparts, rfl⟩ := expandItems_eq_ok_iff.1 h
  refine expandItems_eq_ok_iff.2 ⟨parts, forall₂_imp_of_mem hparts fun v hv part => ?_, rfl⟩
  rintro ⟨w, hw, rfl⟩
  exact ⟨w, ih v hv w hw, rfl⟩

theorem expandEntries_mono (ih : ∀ e ∈ entries, ∀ w, expandValue loader e.2 = .ok w →
    expandValue loader' e.2 = .ok w)
    (h : expandEntries loader entries = .ok os) : expandEntries loader' entries = .ok os := by
  have hpairs := expandEntries_eq_ok_iff.1 h
  refine expandEntries_eq_ok_iff.2 (forall₂_imp_of_mem hpairs fun e he o ⟨hkey, hvalue⟩ => ?_)
  exact ⟨hkey, ih e (List.mem_of_mem_filter he) o.2 hvalue⟩

/-- **An expansion that succeeds** does so with every load that finds as much. -/
theorem expandValue_mono (hload : FindsAll loader loader') (h : expandValue loader v = .ok w) :
    expandValue loader' v = .ok w := by
  induction v using Value.induction generalizing w with
  | seq items ih =>
    rw [expandValue] at h ⊢
    obtain ⟨ws, hws, h⟩ := exists_of_bind_eq_ok h
    rw [expandItems_mono (fun v hv _ hw => ih v hv hw) hws]
    exact h
  | map entries ih =>
    rw [expandValue] at h ⊢
    obtain ⟨os, hos, h⟩ := exists_of_bind_eq_ok h
    rw [expandEntries_mono (fun e he _ hw => (ih e he).2 hw) hos]
    exact follow_mono hload h
  | tagged name v ih =>
    rw [expandValue] at h ⊢
    obtain ⟨w', hw', h⟩ := exists_of_bind_eq_ok h
    rw [ih hw']
    exact h
  | _ => exact h

/-! ## Include paths that find more -/

/-- What is found in one list of directories is found in another, too. -/
def Covers (fs : FileSystem) (dirs dirs' : List Path) : Prop :=
  ∀ name path, locate fs dirs name = .ok path → locate fs dirs' name = .ok path

theorem Opens.mono {file : Path} {doc : Value} (hdirs : Covers fs dirs dirs')
    (h : Opens fs dirs name file doc) :
    Opens fs dirs' name file doc := by
  obtain ⟨⟨path, hpath, hfile⟩, hdocument⟩ := h
  exact ⟨⟨path, hdirs name path hpath, hfile⟩, hdocument⟩

/-- The files that a load opens are found again, and so are those that they include. -/
theorem load_mono (hdirs : Covers fs dirs dirs') :
    FindsAll (load fs dirs levels files) (load fs dirs' levels files) := by
  induction levels generalizing files with
  | zero => exact fun name w h => by cases h
  | succ levels ih =>
    intro name w h
    obtain ⟨file, doc, hopens, hopen, hdoc⟩ := load_succ_eq_ok_iff.1 h
    exact load_succ_eq_ok_iff.2 ⟨file, doc, hopens.mono hdirs, hopen, expandValue_mono ih hdoc⟩

theorem expand_mono {bytes : List UInt8} {text : List Char} (hdirs : Covers fs dirs dirs')
    (h : expand fs dirs bytes = .ok text) : expand fs dirs' bytes = .ok text := by
  obtain ⟨w, hw, h⟩ := exists_of_bind_eq_ok h
  have hw' : expandedValue fs dirs' bytes = .ok w := by
    unfold expandedValue at hw ⊢
    cases hv : Value.ofBytes? bytes with
    | none =>
      rw [hv] at hw
      cases hw
    | some v =>
      rw [hv] at hw
      exact expandValue_mono (load_mono hdirs) hw
  rw [expand, hw']
  exact h

/-! ## Include paths that find the same -/

/-- A load depends on the directories through what is located in them. -/
theorem load_congr (hdirs : ∀ name, locate fs dirs name = locate fs dirs' name) :
    load fs dirs levels files = load fs dirs' levels files := by
  induction levels generalizing files with
  | zero => rfl
  | succ levels ih =>
    funext name
    have henter : enter fs dirs files name = enter fs dirs' files name := by
      rw [enter, enter, hdirs]
    rw [load, load, henter]
    simp only [ih]

theorem expand_congr (hdirs : ∀ name, locate fs dirs name = locate fs dirs' name)
    (bytes : List UInt8) :
    expand fs dirs bytes = expand fs dirs' bytes := by
  rw [expand, expand, expandedValue, expandedValue, load_congr hdirs]

/-! ## More directories at the end -/

/-- Where a file of a name may be. -/
def places (dirs : List Path) (name : String) : List Path :=
  if Path.isAbsolute ⟨name⟩ then [⟨name⟩] else dirs.map fun d => d.join ⟨name⟩

theorem locate_eq (fs : FileSystem) (dirs : List Path) (name : String) : locate fs dirs name =
    match (places dirs name).find? fs.isFile with
    | some path => .ok path
    | none => .error (.notFound name) :=
  rfl

theorem locate_eq_ok_iff {path : Path} :
    locate fs dirs name = .ok path ↔ (places dirs name).find? fs.isFile = some path := by
  rw [locate_eq]
  cases (places dirs name).find? fs.isFile <;> simp

/-- The first directory that has a file is the first one still. -/
theorem covers_append (fs : FileSystem) (dirs extra : List Path) :
    Covers fs dirs (dirs ++ extra) := by
  intro name path h
  rw [locate_eq_ok_iff] at h ⊢
  unfold places at h ⊢
  split
  · rename_i habsolute
    rw [if_pos habsolute] at h
    exact h
  · rename_i hrelative
    rw [if_neg hrelative] at h
    rw [List.map_append, List.find?_append, h, Option.some_or]

/-- **More directories at the end** change nothing about a text that can be expanded. -/
theorem expand_append {bytes : List UInt8} {text : List Char} (h : expand fs dirs bytes = .ok text)
    (extra : List Path) : expand fs (dirs ++ extra) bytes = .ok text :=
  expand_mono (covers_append fs dirs extra) h

/-- Two directories that have files of the same names, and one of them another file, too. -/
def layered : FileSystem := Tree.toFileSystem ⟨[], [
  (["near"], .directory), (["near", "base.yaml"],
    .file (Text.Utf8.encode "b: {include: part.yaml}\n".toList) false),
  (["near", "part.yaml"], .file (Text.Utf8.encode "near\n".toList) false),
  (["far"], .directory), (["far", "base.yaml"], .file (Text.Utf8.encode "far\n".toList) false),
  (["far", "part.yaml"], .file (Text.Utf8.encode "far\n".toList) false)]⟩

/-- A text that includes one of them. -/
def layeredFile : List UInt8 := Text.Utf8.encode "a: {include: base.yaml}\n".toList

/-- What it is expanded to. -/
def layeredText : List Char := "a:\n  b: near\n".toList

theorem expand_append_of_layered : expand layered [⟨"/near"⟩] layeredFile = .ok layeredText ∧
    expand layered [⟨"/far"⟩] layeredFile ≠ .ok layeredText ∧
      expand layered [⟨"/near"⟩, ⟨"/far"⟩] layeredFile = .ok layeredText := by
  have hnear : expand layered [⟨"/near"⟩] layeredFile = .ok layeredText := by decide +kernel
  have hfar : expand layered [⟨"/far"⟩] layeredFile ≠ .ok layeredText := by decide +kernel
  exact ⟨hnear, hfar, expand_append hnear [⟨"/far"⟩]⟩

end TestOrchestrator.Include
