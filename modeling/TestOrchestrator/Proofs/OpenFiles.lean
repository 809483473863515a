import TestOrchestrator.Proofs.Inclusion
/-!
# Files that are open

The files that are being included can be kept on a stack: a file is put on it when it is opened and
taken off when its document is expanded or cannot be.

* `expandOn fs dirs v` expands a value in this way. Nothing but what it finds on the stack bounds
  it.
* `Settles x files r` says that a part of an expansion ends with a result, leaves the stack as it
  was, and keeps it `Orderly` all the while: no more than `maxDepth` files, all of them different.
* `loadOn_settles` and `expandOn_settles` say that these are the results of `load` and
  `expandValue`.
* `expands_iff_allowed` puts this together with what documents can be expanded.
-/

namespace TestOrchestrator.Include

open Yaml

/-! ## Expanding with a stack -/

/-- The files that are open. -/
structure Desk where
  /-- The file that was opened last comes first. -/
  files : List Path := []
  /-- What was open after each file that was opened. -/
  past : List (List Path) := []

/-- A part of an expansion. It may not end. -/
abbrev Opening := StateT Desk Option

namespace Desk

/-- Opens a file. -/
def push (file : Path) (desk : Desk) : Desk :=
  ⟨file :: desk.files, desk.past ++ [file :: desk.files]⟩

/-- Closes the file that was opened last. -/
def pop (desk : Desk) : Desk := { desk with files := desk.files.tail }

end Desk

/-- The file that is to be opened next, and the document in it. -/
def next (fs : FileSystem) (dirs files : List Path) (name : String) :
    Except IncludeError (Path × Value) := do
  if maxDepth ≤ files.length then throw (.tooDeep maxDepth)
  else
    let file ← enter fs dirs files name
    return (file, ← readDocument fs file)

end TestOrchestrator.Include

namespace TestOrchestrator

open Include Yaml

mutual

/-- Puts the included documents into a value. -/
def FileSystem.expandOn (fs : FileSystem) (dirs : List Path) (v : Value) :
    Opening (Except IncludeError Value) := do
  match v with
  | .seq items => return (← fs |>.expandItemsOn dirs items).map .seq
  | .map entries =>
    match ← fs |>.expandEntriesOn dirs entries with
    | .error err => return .error err
    | .ok others =>
      match target? entries with
      | none => return .ok (.map others)
      | some (.str name) => return (← fs |>.loadOn dirs name).bind (merged name · others)
      | some _ => return .error .invalidDirective
  | .tagged name v => return (← fs |>.expandOn dirs v).map (.tagged name)
  | v => return .ok v
partial_fixpoint

/-- Puts the included documents into the items of a sequence. -/
def FileSystem.expandItemsOn (fs : FileSystem) (dirs : List Path) (items : List Value) :
    Opening (Except IncludeError (List Value)) := do
  match items with
  | [] => return .ok []
  | v :: vs =>
    match ← fs |>.expandOn dirs v with
    | .error err => return .error err
    | .ok w => return (← fs |>.expandItemsOn dirs vs).map (spliced (isBare v) w ++ ·)
partial_fixpoint

/-- Puts the included documents into the values of a mapping, leaving out the directives. -/
def FileSystem.expandEntriesOn (fs : FileSystem) (dirs : List Path) (entries : Value.Entries) :
    Opening (Except IncludeError Value.Entries) := do
  match entries with
  | [] => return .ok []
  | (k, v) :: es =>
    if isDirective k then fs |>.expandEntriesOn dirs es
    else
      match ← fs |>.expandOn dirs v with
      | .error err => return .error err
      | .ok w => return (← fs |>.expandEntriesOn dirs es).map ((k, w) :: ·)
partial_fixpoint

/-- The expanded document in a file. The file is closed whether or not that has failed. -/
def FileSystem.loadOn (fs : FileSystem) (dirs : List Path) (name : String) :
    Opening (Except IncludeError Value) := do
  match next fs dirs (← get).files name with
  | .error err => return .error err
  | .ok (file, v) =>
    modify (Desk.push file)
    let r ← fs |>.expandOn dirs v
    modify Desk.pop
    return r
partial_fixpoint

end

end TestOrchestrator

namespace TestOrchestrator.Include

open Yaml

export FileSystem (expandOn expandItemsOn expandEntriesOn loadOn)

/-! ## Parts that end -/

/-- Files that may be open at one time. -/
structure Orderly (files : List Path) : Prop where
  few : files.length ≤ maxDepth
  distinct : files.Pairwise fun p q => p.same q = false

/-- A part of an expansion ends with a result and leaves open what was open. Whenever it opens a
file, those that are open then are in order. -/
def Settles {α : Type} (x : Opening α) (files : List Path) (r : α) : Prop :=
  ∀ past, ∃ log, x.run ⟨files, past⟩ = some (r, ⟨files, past ++ log⟩) ∧ ∀ open_ ∈ log, Orderly open_

namespace Settles

variable {α β : Type} {x : Opening α} {f : α → Opening β} {files : List Path} {a : α} {b : β}

theorem pure (a : α) (files : List Path) : Settles (Pure.pure a) files a :=
  fun past => ⟨[], by rw [List.append_nil]; rfl, fun _ h => absurd h List.not_mem_nil⟩

theorem bind (hx : Settles x files a) (hf : Settles (f a) files b) : Settles (x >>= f) files b := by
  intro past
  obtain ⟨log, hlog, horderly⟩ := hx past
  obtain ⟨log', hlog', horderly'⟩ := hf (past ++ log)
  refine ⟨log ++ log', ?_, ?_⟩
  · rw [StateT.run_bind, hlog]
    show (f a).run ⟨files, past ++ log⟩ = _
    rw [hlog', List.append_assoc]
  · intro open_ h
    exact (List.mem_append.1 h).elim (horderly open_) (horderly' open_)

end Settles

/-! ## Expansion settles -/

variable {fs : FileSystem} {dirs files : List Path} {loader : String → Except IncludeError Value}

theorem expandItemsOn_settles {items : List Value}
    (h : ∀ v ∈ items, Settles (expandOn fs dirs v) files (expandValue loader v)) :
    Settles (expandItemsOn fs dirs items) files (expandItems loader items) := by
  induction items with
  | nil =>
    rw [expandItemsOn]
    exact .pure _ files
  | cons v vs ih =>
    obtain ⟨hv, hvs⟩ := List.forall_mem_cons.1 h
    rw [expandItemsOn, expandItems]
    refine hv.bind ?_
    cases expandValue loader v with
    | error err => exact .pure _ files
    | ok w =>
      refine (ih hvs).bind ?_
      cases expandItems loader vs <;> exact .pure _ files

theorem expandEntriesOn_settles {entries : Value.Entries}
    (h : ∀ e ∈ entries, Settles (expandOn fs dirs e.2) files (expandValue loader e.2)) :
    Settles (expandEntriesOn fs dirs entries) files (expandEntries loader entries) := by
  induction entries with
  | nil =>
    rw [expandEntriesOn]
    exact .pure _ files
  | cons e es ih =>
    obtain ⟨he, hes⟩ := List.forall_mem_cons.1 h
    rw [expandEntriesOn, expandEntries]
    by_cases hk : isDirective e.1 = true
    · rw [if_pos hk, if_pos hk]
      exact ih hes
    · rw [if_neg hk, if_neg hk]
      refine he.bind ?_
      cases expandValue loader e.2 with
      | error err => exact .pure _ files
      | ok w =>
        refine (ih hes).bind ?_
        cases expandEntries loader es <;> exact .pure _ files

/-- An expansion settles if all that it may load does. -/
theorem expandOn_settles (hload : ∀ name, Settles (loadOn fs dirs name) files (loader name))
    (v : Value) :
    Settles (expandOn fs dirs v) files (expandValue loader v) := by
  induction v using Value.induction with
  | seq items ih =>
    rw [expandOn, expandValue]
    refine (expandItemsOn_settles ih).bind ?_
    cases expandItems loader items <;> exact .pure _ files
  | map entries ih =>
    rw [expandOn, expandValue]
    refine (expandEntriesOn_settles fun e he => (ih e he).2).bind ?_
    cases expandEntries loader entries with
    | error err => exact .pure _ files
    | ok os =>
      dsimp only
      cases target? entries with
      | none => exact .pure _ files
      | some t =>
        cases t with
        | str name =>
          refine (hload name).bind ?_
          show Settles _ files (loader name >>= fun w => merged name w os)
          exact .pure _ files
        | _ => exact .pure _ files
  | tagged name v ih =>
    rw [expandOn, expandValue]
    refine ih.bind ?_
    cases expandValue loader v <;> exact .pure _ files
  | _ =>
    rw [expandOn]
    · exact .pure _ files
    all_goals simp

/-! ## Loading settles -/

variable {levels : Nat} {file : Path} {name : String} {doc v : Value}

theorem next_of_full (h : maxDepth ≤ files.length) :
    next fs dirs files name = .error (.tooDeep maxDepth) := by
  rw [next, if_pos h]
  rfl

theorem orderly_of_next (h : next fs dirs files name = .ok (file, doc)) (horderly : Orderly files) :
    Orderly (file :: files) := by
  rw [next] at h
  split at h
  · cases h
  · rename_i hroom
    obtain ⟨file', hfile, h⟩ := exists_of_bind_eq_ok h
    obtain ⟨doc', -, h⟩ := exists_of_bind_eq_ok h
    cases h
    refine ⟨Nat.lt_of_not_le hroom, List.pairwise_cons.2 ⟨?_, horderly.distinct⟩⟩
    simpa using (enter_eq_ok_iff.1 hfile).2

/-- A load in terms of the file that is opened next. -/
theorem load_succ_eq (h : files.length < maxDepth) : load fs dirs (levels + 1) files name =
    next fs dirs files name >>= fun p => expandValue (load fs dirs levels (p.1 :: files)) p.2 := by
  rw [load, next, if_neg (Nat.not_le_of_lt h)]
  cases enter fs dirs files name with
  | error err => rfl
  | ok file =>
    simp only [bind, Except.bind]
    cases readDocument fs file <;> rfl

/-- What the stack does when a file is loaded. -/
theorem run_loadOn (fs : FileSystem) (dirs files : List Path) (past : List (List Path))
    (name : String) :
    (loadOn fs dirs name).run ⟨files, past⟩ =
      match next fs dirs files name with
      | .error err => some (.error err, ⟨files, past⟩)
      | .ok (file, doc) =>
        ((expandOn fs dirs doc).run ⟨file :: files, past ++ [file :: files]⟩).bind fun p =>
          some (p.1, p.2.pop) := by
  rw [loadOn]
  show StateT.run (match next fs dirs files name with
    | .error err => pure (.error err)
    | .ok (file, doc) => do
      modify (Desk.push file)
      let r ← expandOn fs dirs doc
      modify Desk.pop
      return r) ⟨files, past⟩ = _
  cases next fs dirs files name <;> rfl

/-- **A load settles** to what `load` comes to, wherever the expansion stands. -/
theorem loadOn_settles (h : levels + files.length = maxDepth) (horderly : Orderly files)
    (name : String) : Settles (loadOn fs dirs name) files (load fs dirs levels files name) := by
  induction levels generalizing files name with
  | zero =>
    intro past
    have hfull : maxDepth ≤ files.length := by omega
    rw [run_loadOn, next_of_full hfull]
    exact ⟨[], by rw [List.append_nil]; rfl, fun _ h => absurd h List.not_mem_nil⟩
  | succ levels ih =>
    intro past
    have hroom : files.length < maxDepth := by omega
    rw [run_loadOn, load_succ_eq hroom]
    cases hnext : next fs dirs files name with
    | error err => exact ⟨[], by rw [List.append_nil]; rfl, fun _ h => absurd h List.not_mem_nil⟩
    | ok p =>
      obtain ⟨file, doc⟩ := p
      have hopen : Orderly (file :: files) := orderly_of_next hnext horderly
      have hdeeper : levels + (file :: files).length = maxDepth := by
        rw [List.length_cons]
        omega
      obtain ⟨log, hlog, hall⟩ :=
        expandOn_settles (fun name => ih hdeeper hopen name) doc (past ++ [file :: files])
      refine ⟨(file :: files) :: log, ?_, List.forall_mem_cons.2 ⟨hopen, hall⟩⟩
      dsimp only
      rw [hlog, List.append_assoc]
      rfl

/-- **What can be expanded.** From any document the expansion ends; it never has more than
`maxDepth` files open, nor one of them twice, and has closed all of them in the end. It succeeds
just when all directives that are reached from the document are allowed, and it reports a cycle only
through a file that is open where a directive names it. -/
theorem expands_iff_allowed (fs : FileSystem) (dirs : List Path) (doc : Value) :
    let result := expandValue (load fs dirs maxDepth []) doc
    (∃ past, (expandOn fs dirs doc).run {} = some (result, ⟨[], past⟩) ∧
      ∀ open_ ∈ past, open_.length ≤ maxDepth ∧ open_.Pairwise fun p q => p.same q = false) ∧
    ((∃ w, result = .ok w) ↔
      ∀ files v D, Reached fs dirs [] doc files v → Directs v D → Allowed fs dirs files D) ∧
    ∀ file, result = .error (.cycle file) →
      ∃ files v D name, Reached fs dirs [] doc files v ∧ Directs v D ∧ D.target = .str name ∧
        (∃ path, locate fs dirs name = .ok path ∧ fs.canonical? path = .ok file) ∧
        files.any file.same = true := by
  intro result
  have hempty : Orderly [] := ⟨Nat.zero_le maxDepth, .nil⟩
  refine ⟨?_, expandValue_load_isOk_iff rfl, fun file h => exists_reached_of_cycle h⟩
  obtain ⟨past, hpast, horderly⟩ :=
    expandOn_settles (fun name => loadOn_settles rfl hempty name) doc []
  exact ⟨past, hpast, fun open_ h => ⟨(horderly open_ h).few, (horderly open_ h).distinct⟩⟩

end TestOrchestrator.Include
