import TestOrchestrator.Program.Command
import TestOrchestrator.Proofs.Entries
/-!
# What a program finds in its environment

The command for an invocation tells its program what it may want to know in variables of the
environment.

* `splitPaths_of_joined`: paths that were joined are found again, if none is empty or holds a colon
  and each is a text. `isSome_text?_joined`: just then they are a text.
* `Command.get?_envVars`: a variable of a program is what the program is told, else a parameter,
  else what it was before.
* `Command.load_environ`: a program that reads its settings from the environment has the include
  directories of the run, unless one of them is no text, or a colon in one kept them all out of it.
-/

namespace TestOrchestrator

open Text.Utf8 (decode? decode?_encode decode?_eq_some_iff encode)

/-! ## Lists of paths -/

theorem OsText.isSome_text?_iff {t : OsText} : t.text?.isSome ↔ ∃ cs, t.bytes = encode cs := by
  rw [OsText.text?, Option.isSome_map, Option.isSome_iff_exists]
  simp only [decode?_eq_some_iff]

section Paths

variable {ps : List Path}

theorem joinPaths?_of_colonless (h : ∀ p ∈ ps, Byte.colon ∉ p.bytes) :
    joinPaths? ps = some ⟨Text.join [Byte.colon] (ps.map Path.bytes)⟩ := by
  have hnot : ¬ps.any (·.bytes.contains Byte.colon) := by simpa using h
  rw [joinPaths?, if_neg hnot]

theorem joinPaths?_of_colon (h : ∃ p ∈ ps, Byte.colon ∈ p.bytes) : joinPaths? ps = none := by
  have hany : ps.any (·.bytes.contains Byte.colon) := by simpa using h
  rw [joinPaths?, if_pos hany]

theorem utf8EncodeChar_colon : String.utf8EncodeChar ':' = [Byte.colon] := rfl

/-- The text of joined paths has their texts between its colons. -/
theorem bytes_of_joined (hne : ps ≠ []) (hcolon : ∀ p ∈ ps, Byte.colon ∉ p.bytes) {s : String}
    (h : OsText.text? ⟨Text.join [Byte.colon] (ps.map Path.bytes)⟩ = some s) :
    ps.map Path.bytes = (Text.splitOn ':' s.toList).map encode := by
  obtain ⟨cs, hcs, rfl⟩ := Option.map_eq_some_iff.1 h
  rw [String.toList_ofList]
  exact (Text.Utf8.decode?_join_eq_some_iff utf8EncodeChar_colon (by simpa using hne)
    (List.forall_mem_map.2 hcolon)).1 hcs

/-- **Joined paths are found again**, if none is empty or holds a colon and they are a text. -/
theorem splitPaths_of_joined (hne : ps ≠ []) (hfull : ∀ p ∈ ps, p.text ≠ "")
    (hcolon : ∀ p ∈ ps, Byte.colon ∉ p.bytes) {s : String}
    (h : OsText.text? ⟨Text.join [Byte.colon] (ps.map Path.bytes)⟩ = some s) :
    splitPaths s = ps := by
  have hbytes := bytes_of_joined hne hcolon h
  have hkept : (Text.splitOn ':' s.toList).filter (· ≠ []) = Text.splitOn ':' s.toList := by
    refine List.filter_eq_self.2 fun cs hcs => ?_
    obtain ⟨p, hp, hpcs⟩ := List.mem_map.1 (hbytes ▸ List.mem_map_of_mem hcs)
    rw [decide_eq_true_iff]
    rintro rfl
    exact hfull p hp (OsText.bytes_eq_nil_iff.1 hpcs)
  have hpath : ∀ cs, Path.ofText (String.ofList cs) = ⟨⟨encode cs⟩⟩ := by
    intro cs
    rw [Path.ofText, OsText.ofText, String.toList_ofList]
  rw [splitPaths, hkept]
  calc (Text.splitOn ':' s.toList).map (fun cs => Path.ofText (String.ofList cs))
      = ((Text.splitOn ':' s.toList).map encode).map fun bs => ⟨⟨bs⟩⟩ := by
        rw [List.map_map]
        exact List.map_congr_left fun cs _ => hpath cs
    _ = (ps.map Path.bytes).map fun bs => ⟨⟨bs⟩⟩ := by rw [hbytes]
    _ = ps := by
        rw [List.map_map]
        exact List.map_id ps

/-- **Joined paths are a text** just when each of them is one. -/
theorem isSome_text?_joined (hne : ps ≠ []) (hcolon : ∀ p ∈ ps, Byte.colon ∉ p.bytes) :
    (OsText.text? ⟨Text.join [Byte.colon] (ps.map Path.bytes)⟩).isSome ↔
      ∀ p ∈ ps, p.text.text?.isSome := by
  constructor
  · intro h p hp
    obtain ⟨s, hs⟩ := Option.isSome_iff_exists.1 h
    obtain ⟨cs, -, hcs⟩ := List.mem_map.1 (bytes_of_joined hne hcolon hs ▸ List.mem_map_of_mem hp)
    exact OsText.isSome_text?_iff.2 ⟨cs, hcs.symm⟩
  · intro h
    have hencode : ps.map Path.bytes =
        (ps.map fun p => (decode? p.bytes).getD []).map encode := by
      rw [List.map_map]
      refine List.map_congr_left fun p hp => ?_
      obtain ⟨cs, hcs⟩ := OsText.isSome_text?_iff.1 (h p hp)
      have hbytes : p.bytes = encode cs := hcs
      rw [Function.comp_apply, hbytes, decode?_encode, Option.getD_some]
    rw [OsText.isSome_text?_iff, hencode, ← Text.Utf8.encode_join utf8EncodeChar_colon]
    exact ⟨_, rfl⟩

/-- What is read of joined paths: all of them, or none if they are no text. -/
theorem Environment.includeDirs_load (hne : ps ≠ []) (hfull : ∀ p ∈ ps, p.text ≠ "")
    (hcolon : ∀ p ∈ ps, Byte.colon ∉ p.bytes) {env : Variables}
    (h : env "SUITERUN_INCLUDE" = some ⟨Text.join [Byte.colon] (ps.map Path.bytes)⟩) :
    (load env).includeDirs = if ∀ p ∈ ps, p.text.text?.isSome then ps else [] := by
  have hload : (load env).includeDirs =
      ((((env "SUITERUN_INCLUDE").bind OsText.text?).filter (· ≠ "")).map splitPaths).getD [] := rfl
  rw [hload, h, Option.bind_some]
  split
  · rename_i hall
    obtain ⟨s, hs⟩ := Option.isSome_iff_exists.1 ((isSome_text?_joined hne hcolon).2 hall)
    have hsplit := splitPaths_of_joined hne hfull hcolon hs
    have hset : s ≠ "" := by
      rintro rfl
      exact hne hsplit.symm
    rw [hs, Option.filter_some_pos (by simpa using hset), Option.map_some, Option.getD_some, hsplit]
  · rename_i hnot
    rw [← isSome_text?_joined hne hcolon, Option.not_isSome_iff_eq_none] at hnot
    rw [hnot]
    rfl

end Paths

/-! ## Variables -/

theorem Environment.variableName_inj {m n : String} : variableName m = variableName n ↔ m = n := by
  refine ⟨fun h => ?_, congrArg variableName⟩
  have h' := congrArg String.toList h
  rw [variableName, variableName, String.toList_append, String.toList_append] at h'
  exact String.toList_injective (List.append_cancel_left h')

namespace Command

/-- What a program is told of its invocation: the facts that have a value, by the names of their
variables. -/
def told (c : Context) (i : Invocation) : List (String × OsText) :=
  (facts c i).filterMap fun (name, value) => value.map (Environment.variableName name, ·)

variable {outer : Table OsText} {interpreter : Option Path} {c : Context} {i : Invocation}

theorem names_facts : (facts c i).map Prod.fst = ["INCLUDE", "LABELS", "PRIORITY", "VERSION"] := rfl

theorem sorted_told : (told c i).Pairwise fun p q => Text.Precedes p.1 q.1 := by
  have hfacts : (facts c i).Pairwise fun p q =>
      Text.Precedes (Environment.variableName p.1) (Environment.variableName q.1) := by
    have hnames : ((facts c i).map Prod.fst).Pairwise fun m n =>
        Text.Precedes (Environment.variableName m) (Environment.variableName n) := by
      rw [names_facts]
      decide
    exact hnames.of_map Prod.fst fun p q h => h
  refine hfacts.filterMap _ fun p q hpq p' hp' q' hq' => ?_
  obtain ⟨v, -, rfl⟩ := Option.map_eq_some_iff.1 hp'
  obtain ⟨w, -, rfl⟩ := Option.map_eq_some_iff.1 hq'
  exact hpq

/-- **A variable of a program** is what the program is told, else a parameter, else what it was
before. -/
theorem get?_envVars (k : String) : (Command.of outer interpreter c i).envVars.get? k =
    ((told c i).lookup k).or (((i.params.get? k).map .ofText).or (outer.get? k)) := by
  show ((outer.update (i.params.map .ofText)).insertAll (told c i)).get? k = _
  rw [Table.get?_insertAll sorted_told, Table.get?_update, Table.get?_map]

/-- Facts with distinct names are found under the names of their variables. -/
theorem lookup_filterMap {fs : List (String × Option OsText)} (h : (fs.map Prod.fst).Nodup)
    (name : String) :
    (fs.filterMap fun (n, value) => value.map (Environment.variableName n, ·)).lookup
        (Environment.variableName name) =
      (fs.lookup name).join := by
  induction fs with
  | nil => rfl
  | cons f fs ih =>
    obtain ⟨n, value⟩ := f
    obtain ⟨hn, hfs⟩ := List.nodup_cons.1 h
    have hbeq : (Environment.variableName name == Environment.variableName n) = (name == n) := by
      rw [Bool.eq_iff_iff, beq_iff_eq, beq_iff_eq, Environment.variableName_inj]
    rw [List.filterMap_cons, List.lookup_cons]
    cases value with
    | some v =>
      simp only [Option.map_some, List.lookup_cons, hbeq, ih hfs]
      cases name == n <;> rfl
    | none =>
      simp only [Option.map_none, ih hfs]
      cases hname : name == n with
      | false => rfl
      | true =>
        -- no other fact has this name
        have hnone : fs.lookup name = none := by
          rw [List.lookup_eq_none_iff]
          intro p hp
          have hne : n ≠ p.1 := fun heq => hn (List.mem_map.2 ⟨p, hp, heq.symm⟩)
          simpa [eq_of_beq hname] using hne
        rw [hnone]
        rfl

theorem lookup_told_include (h : c.includeDirs ≠ []) :
    (told c i).lookup "SUITERUN_INCLUDE" = joinPaths? c.includeDirs := by
  have hname : "SUITERUN_INCLUDE" = Environment.variableName "INCLUDE" := rfl
  have hdistinct : ((facts c i).map Prod.fst).Nodup := by
    rw [names_facts]
    decide
  have hdirs : c.includeDirs.isEmpty = false := by simpa using h
  rw [hname, told, lookup_filterMap hdistinct, facts, hdirs]
  rfl

/-! ## The include directories -/

/-- The variable for the include directories: these, else what the program would find without
them. -/
theorem value?_include (hne : c.includeDirs ≠ []) :
    let command := Command.of outer interpreter c i
    command.environ.value? "SUITERUN_INCLUDE" =
      ((joinPaths? c.includeDirs).or (((i.params.get? "SUITERUN_INCLUDE").map .ofText).or
        (outer.get? "SUITERUN_INCLUDE"))).or
          (Environ.beyond? command.envVars "SUITERUN_INCLUDE") := by
  intro command
  rw [environ, Environ.value?_ofTable (by decide), get?_envVars, lookup_told_include hne]

theorem value?_include_of_colonless (hne : c.includeDirs ≠ [])
    (hcolon : ∀ p ∈ c.includeDirs, Byte.colon ∉ p.bytes) :
    (Command.of outer interpreter c i).environ.value? "SUITERUN_INCLUDE" =
      some ⟨Text.join [Byte.colon] (c.includeDirs.map Path.bytes)⟩ := by
  rw [value?_include hne, joinPaths?_of_colonless hcolon, Option.some_or, Option.some_or]

/-- **Programs read the include directories back** as far as they are texts. If no directory holds a
colon, the variable for them is the directories with colons between, whatever the invocation binds
and whatever the variable was before. A program that reads its settings from its environment gets
the directories in order, but none at all if one of them is no text. If a directory holds a colon,
the variable is what it would be without the run: a parameter, or else what it was before. Only
where there is neither, it may be taken from a variable with a longer name. -/
theorem load_environ (hne : c.includeDirs ≠ []) (hfull : ∀ p ∈ c.includeDirs, p.text ≠ "") :
    ((∀ p ∈ c.includeDirs, Byte.colon ∉ p.bytes) → ∀ outer interpreter i,
      let child := (Command.of outer interpreter c i).environ.value?
      child "SUITERUN_INCLUDE" = some ⟨Text.join [Byte.colon] (c.includeDirs.map Path.bytes)⟩ ∧
        (Environment.load child).includeDirs =
          if ∀ p ∈ c.includeDirs, p.text.text?.isSome then c.includeDirs else []) ∧
    ((∃ p ∈ c.includeDirs, Byte.colon ∈ p.bytes) → ∀ outer interpreter i,
      let command := Command.of outer interpreter c i
      command.environ.value? "SUITERUN_INCLUDE" =
        (((i.params.get? "SUITERUN_INCLUDE").map .ofText).or (outer.get? "SUITERUN_INCLUDE")).or
          (Environ.beyond? command.envVars "SUITERUN_INCLUDE")) := by
  constructor
  · intro hcolon outer interpreter i child
    have hvalue : child "SUITERUN_INCLUDE" = _ := value?_include_of_colonless hne hcolon
    exact ⟨hvalue, Environment.includeDirs_load hne hfull hcolon hvalue⟩
  · intro hcolon outer interpreter i command
    rw [value?_include hne, joinPaths?_of_colon hcolon, Option.none_or]

/-- An invocation that binds the variable for the include directories to something else. -/
def rebinding : Invocation where
  name := "ping"
  path := ⟨"ping"⟩
  version := none
  params := .ofList [("SUITERUN_INCLUDE", "/bound")]
  labels := []
  priority := none

/-- An invocation that binds a variable whose name is longer. -/
def overlong : Invocation := { rebinding with params := .ofList [("SUITERUN_INCLUDE=/x", "y")] }

/-- The variable as it was before. -/
def inherited : Table OsText := .ofList [("SUITERUN_INCLUDE", "/before")]

/-- A context with some include directories. -/
def including (dirs : List Path) : Context := { baseDir := ⟨"/"⟩, includeDirs := dirs }

/-- A directory whose name is no text. -/
def garbled : Path := ⟨"/tmp/" ++ ⟨[0xFF]⟩⟩

theorem load_environ_of_rebinding :
    let plain := including [⟨"/inc/a"⟩, ⟨"inc b"⟩]
    let mixed := including [⟨"/inc/a"⟩, garbled]
    let divided := including [⟨"/inc/a"⟩, ⟨"b:c"⟩]
    (Environment.load (Command.of inherited none plain rebinding).environ.value?).includeDirs =
        [⟨"/inc/a"⟩, ⟨"inc b"⟩] ∧
      (Environment.load (Command.of inherited none mixed rebinding).environ.value?).includeDirs =
        [] ∧
      (Command.of inherited none divided rebinding).environ.value? "SUITERUN_INCLUDE" =
        some "/bound" ∧
      (Command.of inherited none divided overlong).environ.value? "SUITERUN_INCLUDE" =
        some "/before" ∧
      (Command.of .empty none divided overlong).environ.value? "SUITERUN_INCLUDE" =
        some "/x=y" := by
  intro plain mixed divided
  have hplain := ((load_environ (c := plain) (by decide) (by decide)).1 (by decide)) inherited none
    rebinding
  have hmixed := ((load_environ (c := mixed) (by decide) (by decide)).1 (by decide)) inherited none
    rebinding
  have hdivided := (load_environ (c := divided) (by decide) (by decide)).2 (by decide)
  refine ⟨hplain.2.trans (if_pos (by decide +kernel)), hmixed.2.trans (if_neg (by decide +kernel)),
    ?_, ?_, ?_⟩
  · exact (hdivided inherited none rebinding).trans (by decide +kernel)
  · exact (hdivided inherited none overlong).trans (by decide +kernel)
  · exact (hdivided .empty none overlong).trans (by decide +kernel)

/-- Not all directories are read back, and not all that a program finds was set under the name that
it looks for. -/
theorem not_load_environ :
    (¬∀ (outer : Table OsText) (interpreter : Option Path) (c : Context) (i : Invocation),
      c.includeDirs ≠ [] → (∀ p ∈ c.includeDirs, p.text ≠ "") →
        (∀ p ∈ c.includeDirs, Byte.colon ∉ p.bytes) →
          (Environment.load (Command.of outer interpreter c i).environ.value?).includeDirs =
            c.includeDirs) ∧
    ¬∀ (outer : Table OsText) (interpreter : Option Path) (c : Context) (i : Invocation),
      c.includeDirs ≠ [] → (∀ p ∈ c.includeDirs, p.text ≠ "") →
        (∃ p ∈ c.includeDirs, Byte.colon ∈ p.bytes) →
          (Command.of outer interpreter c i).environ.value? "SUITERUN_INCLUDE" =
            ((i.params.get? "SUITERUN_INCLUDE").map .ofText).or
              (outer.get? "SUITERUN_INCLUDE") := by
  constructor
  · intro h
    have hload := h inherited none (including [⟨"/inc"⟩, garbled]) rebinding (by decide) (by decide)
      (by decide)
    rw [Environment.includeDirs_load (by decide) (by decide) (by decide)
      (value?_include_of_colonless (by decide) (by decide)), if_neg (by decide +kernel)] at hload
    cases hload
  · intro h
    have hvalue := h .empty none (including [⟨"/a:b"⟩]) overlong (by decide) (by decide) (by decide)
    rw [value?_include (by decide)] at hvalue
    revert hvalue
    decide +kernel

end Command

end TestOrchestrator
