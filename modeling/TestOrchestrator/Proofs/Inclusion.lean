import TestOrchestrator.Proofs.Directives
/-!
# Documents that include documents

* `Opens fs dirs name file doc` says what a directive that names `name` leads to.
* `Reached fs dirs files v files' v'` follows directives from a document into the documents that
  they name, and on from there. It looks for no cycle and has no bound.
* `Allowed fs dirs files D` is what must hold of a directive with the files `files` open.
* `expandValue_load_isOk_iff`: a document can be expanded just when all directives that are reached
  from it are allowed.
* `exists_reached_of_cycle`: a cycle is reported only where a directive names a file that is open.
-/

namespace TestOrchestrator.Include

open Yaml

/-! ## Files -/

/-- A name is that of a file, and there is a document in it. -/
structure Opens (fs : FileSystem) (dirs : List Path) (name : String) (file : Path) (doc : Value) :
    Prop where
  found : ∃ path, locate fs dirs name = .ok path ∧ fs.canonical? path = .ok file
  document : ∃ bytes, fs.read? file = .ok bytes ∧ Value.ofBytes? bytes = some doc

variable {fs : FileSystem} {dirs : List Path} {name : String} {file file' : Path}
  {v w doc doc' : Value}
  {files files' : List Path} {levels : Nat} {D : Directive}

theorem Opens.unique (h : Opens fs dirs name file doc) (h' : Opens fs dirs name file' doc') :
    file = file' ∧ doc = doc' := by
  obtain ⟨⟨path, hpath, hfile⟩, bytes, hbytes, hdoc⟩ := h
  obtain ⟨⟨path', hpath', hfile'⟩, bytes', hbytes', hdoc'⟩ := h'
  cases hpath.symm.trans hpath'
  cases hfile.symm.trans hfile'
  cases hbytes.symm.trans hbytes'
  exact ⟨rfl, Option.some.inj (hdoc.symm.trans hdoc')⟩

theorem enter_eq_ok_iff : enter fs dirs files name = .ok file ↔
    (∃ path, locate fs dirs name = .ok path ∧ fs.canonical? path = .ok file) ∧
      files.any file.same = false := by
  unfold enter
  cases locate fs dirs name with
  | error err => simp [bind, Except.bind]
  | ok path =>
    simp only [bind, Except.bind]
    cases hfile : fs.canonical? path with
    | error why => simp [hfile]
    | ok file' =>
      cases hopen : files.any file'.same with
      | true => grind
      | false => grind

theorem readDocument_eq_ok_iff : readDocument fs file = .ok doc ↔
    ∃ bytes, fs.read? file = .ok bytes ∧ Value.ofBytes? bytes = some doc := by
  unfold readDocument
  cases fs.read? file with
  | error why => simp
  | ok bytes => cases h : Value.ofBytes? bytes <;> simp [h]

/-- A file can be loaded if it can be opened, is not open already, and its document can be
expanded. -/
theorem load_succ_eq_ok_iff : load fs dirs (levels + 1) files name = .ok w ↔
    ∃ file doc, Opens fs dirs name file doc ∧ files.any file.same = false ∧
      expandValue (load fs dirs levels (file :: files)) doc = .ok w := by
  rw [load]
  constructor
  · intro h
    obtain ⟨file, hfile, h⟩ := exists_of_bind_eq_ok h
    obtain ⟨doc, hdoc, h⟩ := exists_of_bind_eq_ok h
    obtain ⟨hfound, hopen⟩ := enter_eq_ok_iff.1 hfile
    exact ⟨file, doc, ⟨hfound, readDocument_eq_ok_iff.1 hdoc⟩, hopen, h⟩
  · rintro ⟨file, doc, ⟨hfound, hdoc⟩, hopen, h⟩
    rw [enter_eq_ok_iff.2 ⟨hfound, hopen⟩]
    show readDocument fs file >>= _ = _
    rw [readDocument_eq_ok_iff.2 hdoc]
    exact h

/-! ## Mappings -/

/-- A document that expands to a mapping if it can be expanded: a mapping that has no directive, or
other entries besides it, or nothing but a directive that leads to such a document. -/
inductive Mapped (fs : FileSystem) (dirs : List Path) : Value → Prop
  | plain {entries : Value.Entries} (none : target? entries = none) : Mapped fs dirs (.map entries)
  | shared {entries : Value.Entries} {target : Value} (last : target? entries = some target)
      (more : (others entries).isEmpty = false) : Mapped fs dirs (.map entries)
  | through {entries : Value.Entries} {name : String} {file : Path} {doc : Value}
      (last : target? entries = some (.str name)) (alone : (others entries).isEmpty = true)
      (opens : Opens fs dirs name file doc) (below : Mapped fs dirs doc) :
        Mapped fs dirs (.map entries)

/-- What a mapping whose other entries are expanded comes to. -/
theorem follow_eq_ok {load : String → Except IncludeError Value} {target : Option Value}
    {os : Value.Entries} (h : follow load target os = .ok w) :
    (target = none ∧ IsMapping w) ∨
      ∃ name, target = some (.str name) ∧
        ((os.isEmpty = true ∧ load name = .ok w) ∨ (os.isEmpty = false ∧ IsMapping w)) := by
  cases target with
  | none =>
    cases h
    exact .inl ⟨rfl, os, rfl⟩
  | some t =>
    cases t with
    | str name =>
      obtain ⟨included, hincluded, h⟩ := exists_of_bind_eq_ok h
      refine .inr ⟨name, rfl, ?_⟩
      cases os with
      | nil =>
        cases h
        exact .inl ⟨rfl, hincluded⟩
      | cons o os =>
        cases included <;> cases h
        exact .inr ⟨rfl, _, rfl⟩
    | _ => cases h

theorem isMapping_of_expandValue {load : String → Except IncludeError Value}
    (h : expandValue load v = .ok w) (hw : IsMapping w) : IsMapping v := by
  obtain ⟨entries, rfl⟩ := hw
  cases v with
  | map entries => exact ⟨entries, rfl⟩
  | seq items =>
    obtain ⟨ws, -, h⟩ := exists_of_bind_eq_ok h
    cases h
  | tagged name v =>
    obtain ⟨w, -, h⟩ := exists_of_bind_eq_ok h
    cases h
  | _ => cases h

/-- **Which documents expand to a mapping.** -/
theorem isMapping_iff_mapped (h : expandValue (load fs dirs levels files) v = .ok w) :
    IsMapping w ↔ Mapped fs dirs v := by
  induction levels using Nat.strongRecOn generalizing files v w with
  | ind levels ih =>
  by_cases hv : IsMapping v
  · obtain ⟨entries, rfl⟩ := hv
    rw [expandValue] at h
    obtain ⟨os, hos, h⟩ := exists_of_bind_eq_ok h
    have hempty := isEmpty_of_expandEntries hos
    rcases follow_eq_ok h with ⟨hnone, hmapping⟩ | ⟨name, hlast,
      ⟨halone, hload⟩ | ⟨hmore, hmapping⟩⟩
    · exact iff_of_true hmapping (.plain hnone)
    · -- all depends on the document in the file
      cases levels with
      | zero => cases hload
      | succ levels =>
        obtain ⟨file, doc, hopens, -, hdoc⟩ := load_succ_eq_ok_iff.1 hload
        rw [ih levels (Nat.lt_succ_self levels) hdoc]
        refine ⟨.through hlast (hempty ▸ halone) hopens, fun hmapped => ?_⟩
        cases hmapped with
        | plain hnone =>
          rw [hlast] at hnone
          cases hnone
        | shared _ hmore =>
          rw [← hempty, halone] at hmore
          cases hmore
        | through hlast' _ hopens' below =>
          cases hlast.symm.trans hlast'
          obtain ⟨-, rfl⟩ := hopens.unique hopens'
          exact below
    · exact iff_of_true hmapping (.shared hlast (hempty ▸ hmore))
  · refine iff_of_false (fun hw => hv (isMapping_of_expandValue h hw)) fun hmapped => hv ?_
    cases hmapped <;> exact ⟨_, rfl⟩

/-! ## Following directives -/

/-- Directives lead from a document, with some files open, to a document in a file that is then open
too. -/
inductive Reached (fs : FileSystem) (dirs : List Path) :
    List Path → Value → List Path → Value → Prop
  | here {files : List Path} {v : Value} : Reached fs dirs files v files v
  | into {files files' : List Path} {v doc v' : Value} {D : Directive} {name : String} {file : Path}
      (directs : Directs v D) (target : D.target = .str name) (opens : Opens fs dirs name file doc)
      (on : Reached fs dirs (file :: files) doc files' v') : Reached fs dirs files v files' v'

/-- What must hold of a directive where some files are open: it names a file that can be opened,
there is room for one more file, that file is not open, and its document is a mapping if there are
other entries. -/
structure Allowed (fs : FileSystem) (dirs files : List Path) (D : Directive) : Prop where
  room : files.length < maxDepth
  opens : ∃ name file doc, D.target = .str name ∧ Opens fs dirs name file doc ∧
    files.any file.same = false ∧ (D.shared = true → Mapped fs dirs doc)

/-- **A document can be expanded** just when all directives that are reached from it are allowed. -/
theorem expandValue_load_isOk_iff (h : levels + files.length = maxDepth) :
    (∃ w, expandValue (load fs dirs levels files) v = .ok w) ↔
      ∀ files' v' D, Reached fs dirs files v files' v' → Directs v' D →
        Allowed fs dirs files' D := by
  induction levels generalizing files v with
  | zero =>
    rw [expandValue_isOk_iff]
    constructor
    · intro hheeds files' v' D hreached hD
      cases hreached with
      | here =>
        obtain ⟨name, w, -, hw, -⟩ := hheeds D hD
        cases hw
      | into directs _ _ _ =>
        obtain ⟨name, w, -, hw, -⟩ := hheeds _ directs
        cases hw
    · intro hallowed D hD
      have hroom := (hallowed files v D .here hD).room
      omega
  | succ levels ih =>
    have hdeeper : ∀ file : Path, levels + (file :: files).length = maxDepth := by
      intro file
      rw [List.length_cons]
      omega
    rw [expandValue_isOk_iff]
    constructor
    · intro hheeds files' v' D hreached hD
      cases hreached with
      | here =>
        obtain ⟨name, w, hname, hw, hmapping⟩ := hheeds D hD
        obtain ⟨file, doc, hopens, hopen, hdoc⟩ := load_succ_eq_ok_iff.1 hw
        refine ⟨by omega, name, file, doc, hname, hopens, hopen, fun hshared => ?_⟩
        exact (isMapping_iff_mapped hdoc).1 (hmapping hshared)
      | into directs target opens on =>
        obtain ⟨name, w, hname, hw, -⟩ := hheeds _ directs
        cases target.symm.trans hname
        obtain ⟨file, doc, hopens, -, hdoc⟩ := load_succ_eq_ok_iff.1 hw
        obtain ⟨rfl, rfl⟩ := opens.unique hopens
        exact (ih (hdeeper _)).1 ⟨w, hdoc⟩ files' v' D on hD
    · intro hallowed D hD
      obtain ⟨-, name, file, doc, hname, hopens, hopen, hmapped⟩ := hallowed files v D .here hD
      obtain ⟨w, hdoc⟩ := (ih (hdeeper file)).2 fun files' v' D' hreached hD' =>
        hallowed files' v' D' (.into hD hname hopens hreached) hD'
      exact ⟨name, w, hname, load_succ_eq_ok_iff.2 ⟨file, doc, hopens, hopen, hdoc⟩,
        fun hshared => (isMapping_iff_mapped hdoc).2 (hmapped hshared)⟩

/-! ## Cycles -/

theorem cases_of_load_eq_cycle (h : load fs dirs (levels + 1) files name = .error (.cycle file)) :
    ((∃ path, locate fs dirs name = .ok path ∧ fs.canonical? path = .ok file) ∧
        files.any file.same = true) ∨
      ∃ file' doc, Opens fs dirs name file' doc ∧
        expandValue (load fs dirs levels (file' :: files)) doc = .error (.cycle file) := by
  rw [load] at h
  rcases cases_of_bind_eq_error h with h | ⟨file', hfile', h⟩
  · left
    unfold enter at h
    rcases cases_of_bind_eq_error h with h | ⟨path, hpath, h⟩
    · unfold locate at h
      grind
    · cases hfile : fs.canonical? path with
      | error why => grind
      | ok file' => grind
  · rcases cases_of_bind_eq_error h with h | ⟨doc, hdoc, h⟩
    · unfold readDocument at h
      grind
    · exact .inr ⟨file', doc, ⟨(enter_eq_ok_iff.1 hfile').1, readDocument_eq_ok_iff.1 hdoc⟩, h⟩

/-- **A cycle is reported only where a file is open already** that a directive names. -/
theorem exists_reached_of_cycle
    (h : expandValue (load fs dirs levels files) v = .error (.cycle file)) :
    ∃ files' v' D name, Reached fs dirs files v files' v' ∧ Directs v' D ∧ D.target = .str name ∧
      (∃ path, locate fs dirs name = .ok path ∧ fs.canonical? path = .ok file) ∧
      files'.any file.same = true := by
  induction levels generalizing files v with
  | zero =>
    rcases exists_directs_of_error h with h | ⟨D, name, -, -, h⟩
    · cases h
    · cases h
  | succ levels ih =>
    rcases exists_directs_of_error h with h | ⟨D, name, hD, hname, h⟩
    · cases h
    · rcases cases_of_load_eq_cycle h with ⟨hfound, hopen⟩ | ⟨file', doc, hopens, h⟩
      · exact ⟨files, v, D, name, .here, hD, hname, hfound, hopen⟩
      · obtain ⟨files', v', D', name', hreached, hrest⟩ := ih h
        exact ⟨files', v', D', name', .into hD hname hopens hreached, hrest⟩

end TestOrchestrator.Include
