import TestOrchestrator.Proofs.Expanded
import TestOrchestrator.Proofs.Formation
/-!
# Overriding and splicing

What a mapping with a directive and what a sequence with directives are expanded to.

* `Contents fs dirs levels files name w` says that the file of a name comes to `w`, with some files
  open already.
* `Overrides loader os base result` says that the values of some entries go before those of a base,
  key by key. `Overrides.unique`: there is only one way to do so.
* `Part fs dirs levels files v vs` says that an item of a sequence stands for the items `vs`.
* `expandValue_overrides_and_splices`: other keys override, and bare directives are spliced.
-/

namespace TestOrchestrator.Include

open Yaml Value

variable {loader : String → Except IncludeError Value} {v w : Value}
  {entries os base result result' : Entries}
  {items vs : List Value} {fs : FileSystem} {dirs files : List Path} {name : String} {levels : Nat}

/-! ## What a file comes to -/

/-- What the file of a name comes to when it is included: it can be opened, is not one of those that
are open, and its document is expanded with one more file open. -/
inductive Contents (fs : FileSystem) (dirs : List Path) : Nat → List Path → String → Value → Prop
  | intro {levels : Nat} {files : List Path} {name : String} {file : Path} {doc w : Value}
      (opens : Opens fs dirs name file doc) (closed : files.any file.same = false)
      (expands : expandValue (load fs dirs levels (file :: files)) doc = .ok w) :
      Contents fs dirs (levels + 1) files name w

theorem load_eq_ok_iff : load fs dirs levels files name = .ok w ↔
    Contents fs dirs levels files name w := by
  cases levels with
  | zero => exact iff_of_false nofun nofun
  | succ levels =>
    rw [load_succ_eq_ok_iff]
    constructor
    · rintro ⟨file, doc, hopens, hclosed, hdoc⟩
      exact .intro hopens hclosed hdoc
    · rintro ⟨hopens, hclosed, hdoc⟩
      exact ⟨_, _, hopens, hclosed, hdoc⟩

/-! ## Overriding -/

/-- Entries that go before those of a base. -/
structure Overrides (loader : String → Except IncludeError Value)
    (os base result : Entries) : Prop where
  /-- Their keys have their values, expanded. -/
  own : ∀ o ∈ os, ∃ u, expandValue loader o.2 = .ok u ∧ member? o.1 result = some u
  /-- All other keys of the base have their values from there. -/
  kept : ∀ e ∈ base, (∀ o ∈ os, same o.1 e.1 = false) → member? e.1 result = some e.2
  /-- The keys of the base come first, then the new ones, and there are no others. -/
  keys : result.map Prod.fst = base.map Prod.fst ++ (os.map Prod.fst).filter fun k =>
    !base.any fun e => same k e.1
  distinct : distinctKeys result = true

theorem overrides_putAll (hentries : Formed (.map entries)) (hbase : Formed (.map base))
    (hos : expandEntries loader entries = .ok os) :
      Overrides loader (others entries) base (putAll os base) := by
  have hkeyed := keyed_expandEntries hentries hos
  have hpairs := expandEntries_eq_ok_iff.1 hos
  obtain ⟨hbase, -⟩ := formed_map_iff.1 hbase
  refine ⟨fun e he => ?_, fun e he hnot => ?_, ?_,
    (hbase.putAll sameOn_formed hkeyed.keys).distinct⟩
  · obtain ⟨o, ho, hkey, hvalue⟩ := exists_of_mem_left hpairs he
    refine ⟨o.2, hvalue, ?_⟩
    rw [← hkey, member?_putAll sameOn_formed hkeyed (hkeyed.keys o ho) hbase,
      hkeyed.member?_eq sameOn_formed ho, Option.some_or]
  · have hnone : member? e.1 os = none := by
      refine member?_eq_none sameOn_formed hkeyed.keys (hbase.keys e he) fun o ho => ?_
      obtain ⟨e', he', hkey, -⟩ := exists_of_mem_right hpairs ho
      rw [hkey]
      exact hnot e' he'
    rw [member?_putAll sameOn_formed hkeyed (hbase.keys e he) hbase, hnone, Option.none_or,
      hbase.member?_eq sameOn_formed he]
  · rw [keys_putAll sameOn_formed hkeyed hbase, keys_of_expandEntries hos]

theorem Overrides.keyed (h : Overrides loader os base result) (hos : Keyed Formed os)
    (hbase : Keyed Formed base) :
    Keyed Formed result := by
  refine keyed_iff.2 ⟨List.pairwise_map.2 (distinctKeys_iff.1 h.distinct), fun k hk => ?_⟩
  rw [h.keys, List.mem_append] at hk
  rcases hk with hk | hk
  · exact (keyed_iff.1 hbase).2 k hk
  · exact (keyed_iff.1 hos).2 k (List.mem_of_mem_filter hk)

/-- There is only one way to go before the entries of a base. -/
theorem Overrides.unique (h : Overrides loader os base result)
    (h' : Overrides loader os base result')
    (hos : Keyed Formed os) (hbase : Keyed Formed base) : result = result' := by
  have hkeyed := h.keyed hos hbase
  have hkeyed' := h'.keyed hos hbase
  refine hkeyed.eq_of_member? sameOn_formed hkeyed' (h.keys.trans h'.keys.symm) fun k hk => ?_
  have hk' := (keyed_iff.1 hkeyed).2 k hk
  by_cases hown : ∃ o ∈ os, same o.1 k = true
  · obtain ⟨o, ho, hsame⟩ := hown
    obtain ⟨u, hu, hmember⟩ := h.own o ho
    obtain ⟨u', hu', hmember'⟩ := h'.own o ho
    cases hu.symm.trans hu'
    rw [← member?_congr sameOn_formed (hos.keys o ho) hk' hkeyed.keys hsame, hmember,
      ← member?_congr sameOn_formed (hos.keys o ho) hk' hkeyed'.keys hsame, hmember']
  · have hnot : ∀ o ∈ os, same o.1 k = false := fun o ho => Bool.eq_false_iff.2 fun hsame =>
      hown ⟨o, ho, hsame⟩
    rw [h.keys, List.mem_append] at hk
    rcases hk with hk | hk
    · obtain ⟨e, he, rfl⟩ := List.mem_map.1 hk
      rw [h.kept e he hnot, h'.kept e he hnot]
    · -- a new key is one of the others
      obtain ⟨o, ho, rfl⟩ := List.mem_map.1 (List.mem_of_mem_filter hk)
      exact absurd ⟨o, ho, sameOn_formed.refl hk'⟩ hown

theorem expandValue_of_shared (hlast : target? entries = some (.str name))
    (hmore : others entries ≠ [])
    (hos : expandEntries loader entries = .ok os) :
    expandValue loader (.map entries) = .ok w ↔ ∃ base, loader name = .ok (.map base) ∧
      w = .map (putAll os base) := by
  have hne : os ≠ [] := by
    rw [← List.isEmpty_eq_false_iff, isEmpty_of_expandEntries hos, List.isEmpty_eq_false_iff]
    exact hmore
  have hmerged : expandValue loader (.map entries) = loader name >>= fun included =>
      merged name included os := by
    rw [expandValue, hos, hlast]
    rfl
  rw [hmerged]
  constructor
  · intro h
    obtain ⟨included, hincluded, h⟩ := exists_of_bind_eq_ok h
    obtain ⟨base, rfl, rfl⟩ := (merged_eq_ok_iff hne).1 h
    exact ⟨base, hincluded, rfl⟩
  · rintro ⟨base, hbase, rfl⟩
    have hok : merged name (.map base) os = .ok (.map (putAll os base)) :=
      (merged_eq_ok_iff hne).2 ⟨base, rfl, rfl⟩
    rw [hbase]
    exact hok

/-- What a mapping with other entries is expanded to. -/
theorem expandValue_iff_overrides (hload : LoadsFormed loader) (hentries : Formed (.map entries))
    (hlast : target? entries = some (.str name)) (hmore : others entries ≠ []) :
    expandValue loader (.map entries) = .ok w ↔ ∃ base result, loader name = .ok (.map base) ∧
      w = .map result ∧
      Overrides loader (others entries) base result := by
  constructor
  · intro h
    obtain ⟨os, hos, -⟩ : ∃ os, expandEntries loader entries = .ok os ∧ _ := exists_of_bind_eq_ok h
    obtain ⟨base, hbase, rfl⟩ := (expandValue_of_shared hlast hmore hos).1 h
    exact ⟨base, _, hbase, rfl, overrides_putAll hentries (hload name _ hbase) hos⟩
  · rintro ⟨base, result, hbase, rfl, hresult⟩
    obtain ⟨os, hos⟩ : ∃ os, expandEntries loader entries = .ok os := by
      refine expandEntries_isOk_iff.2 fun e he hother => ?_
      obtain ⟨u, hu, -⟩ := hresult.own e (List.mem_filter.2 ⟨he, by simp [hother]⟩)
      exact ⟨u, hu⟩
    have hformed := hload name _ hbase
    rw [hresult.unique (overrides_putAll hentries hformed hos) (keyed_others hentries)
      (formed_map_iff.1 hformed).1]
    exact (expandValue_of_shared hlast hmore hos).2 ⟨base, hbase, rfl⟩

theorem expandValue_of_alone (hlast : target? entries = some (.str name))
    (halone : others entries = []) :
    expandValue loader (.map entries) = loader name := by
  have hos : expandEntries loader entries = .ok [] := by
    rw [expandEntries_eq_ok_iff, halone]
    exact .nil
  rw [expandValue, hos, hlast]
  show loader name >>= (fun included => merged name included []) = loader name
  cases loader name <;> rfl

/-! ## Splicing -/

/-- The items that an item of a sequence stands for. -/
inductive Part (fs : FileSystem) (dirs : List Path) (levels : Nat) (files : List Path) :
    Value → List Value → Prop
  | spliced {name : String} {ws : List Value}
      (contents : Contents fs dirs levels files name (.seq ws)) :
      Part fs dirs levels files (.map [(.str keyword, .str name)]) ws
  | single {v w : Value}
      (other : ∀ name ws, v = .map [(.str keyword, .str name)] →
        ¬Contents fs dirs levels files name (.seq ws))
      (expands : expandValue (load fs dirs levels files) v = .ok w) :
        Part fs dirs levels files v [w]

theorem expandValue_bare : expandValue loader (.map [(.str keyword, .str name)]) = loader name :=
  expandValue_of_alone rfl rfl

theorem eq_of_isBare (hbare : isBare v = true) (h : expandValue loader v = .ok w) :
    ∃ name, v = .map [(.str keyword, .str name)] := by
  unfold isBare at hbare
  split at hbare
  · rename_i s target
    obtain rfl : s = keyword := of_decide_eq_true hbare
    cases target with
    | str name => exact ⟨name, rfl⟩
    | _ => cases h
  · cases hbare

theorem spliced_eq_singleton {bare : Bool} (h : ∀ ws, bare = true → w ≠ .seq ws) :
    spliced bare w = [w] := by
  cases w with
  | seq items =>
    cases bare with
    | true => exact absurd rfl (h items rfl)
    | false => rfl
  | _ => rfl

theorem part_iff : Part fs dirs levels files v vs ↔
    ∃ w, expandValue (load fs dirs levels files) v = .ok w ∧ vs = spliced (isBare v) w := by
  constructor
  · intro h
    cases h with
    | spliced contents => exact ⟨.seq vs, by rw [expandValue_bare, load_eq_ok_iff.2 contents], rfl⟩
    | single other expands =>
      refine ⟨_, expands, (spliced_eq_singleton fun ws hbare hw => ?_).symm⟩
      obtain ⟨name, rfl⟩ := eq_of_isBare hbare expands
      rw [expandValue_bare, hw] at expands
      exact other name ws rfl (load_eq_ok_iff.1 expands)
  · rintro ⟨w, hw, rfl⟩
    by_cases hspliced : isBare v = true ∧ ∃ ws, w = .seq ws
    · obtain ⟨hbare, ws, rfl⟩ := hspliced
      obtain ⟨name, rfl⟩ := eq_of_isBare hbare hw
      rw [expandValue_bare] at hw
      exact .spliced (load_eq_ok_iff.1 hw)
    · rw [spliced_eq_singleton fun ws hbare hws => hspliced ⟨hbare, ws, hws⟩]
      refine .single (fun name ws hv hcontents => hspliced ?_) hw
      subst hv
      rw [expandValue_bare, load_eq_ok_iff.2 hcontents] at hw
      exact ⟨rfl, ws, (Except.ok.inj hw).symm⟩

/-- What a sequence is expanded to. -/
theorem expandValue_iff_parts : expandValue (load fs dirs levels files) (.seq items) = .ok w ↔
    ∃ parts, List.Forall₂ (Part fs dirs levels files) items parts ∧ w = .seq parts.flatten := by
  have hparts : Part fs dirs levels files = fun v part =>
      ∃ w, expandValue (load fs dirs levels files) v = .ok w ∧ part = spliced (isBare v) w := by
    funext v part
    exact propext part_iff
  rw [hparts, expandValue]
  constructor
  · intro h
    obtain ⟨ws, hws, h⟩ := exists_of_bind_eq_ok h
    cases h
    obtain ⟨parts, hparts, rfl⟩ := expandItems_eq_ok_iff.1 hws
    exact ⟨parts, hparts, rfl⟩
  · rintro ⟨parts, hparts, rfl⟩
    rw [expandItems_eq_ok_iff.2 ⟨parts, hparts, rfl⟩]
    rfl

/-- **Other keys override, and bare directives are spliced**, with any files, in any directories,
and whatever files are open. A mapping with a directive is what its file comes to, with the values
of its other keys before those from there, if it has any; its keys are distinct, as they are in all
that is read (`formed_of_ofBytes?`). A sequence is the items that its items stand for, one after
another. -/
theorem expandValue_overrides_and_splices (fs : FileSystem) (dirs : List Path) (levels : Nat)
    (files : List Path) :
    (∀ entries name, target? entries = some (.str name) →
      (Formed (.map entries) → others entries ≠ [] →
        ∀ w, expandValue (load fs dirs levels files) (.map entries) = .ok w ↔
          ∃ base result, Contents fs dirs levels files name (.map base) ∧ w = .map result ∧
            Overrides (load fs dirs levels files) (others entries) base result) ∧
      (others entries = [] → ∀ w, expandValue (load fs dirs levels files) (.map entries) = .ok w ↔
        Contents fs dirs levels files name w)) ∧
    ∀ items w, expandValue (load fs dirs levels files) (.seq items) = .ok w ↔
      ∃ parts, List.Forall₂ (Part fs dirs levels files) items parts ∧ w = .seq parts.flatten := by
  refine ⟨fun entries name hlast => ⟨fun hentries hmore w => ?_, fun halone w => ?_⟩,
    fun items w => ?_⟩
  · simp only [expandValue_iff_overrides loadsFormed_load hentries hlast hmore, load_eq_ok_iff]
  · rw [expandValue_of_alone hlast halone, load_eq_ok_iff]
  · exact expandValue_iff_parts

/-- A file with a mapping, and one with a sequence that it includes. -/
def overlaid : FileSystem := shelf [("base.yaml", "a: 1\nb: [{include: list.yaml}, z]\n"),
    ("list.yaml", "[x, y]\n")]

/-- A directive for the sequence and nothing else. -/
def listOnly : Entries := [(.str keyword, .str "list.yaml")]

/-- Entries that go before those of the mapping: a new key, the directive, and a key of the
mapping. -/
def overlay : Entries := [(.str "c", .null), (.str keyword, .str "base.yaml"),
    (.str "a", .map listOnly)]

/-- What a mapping of them is expanded to. -/
def overlayText : List Char := "a:\n- x\n- y\nb:\n- x\n- y\n- z\nc: null\n".toList

/-- What a sequence of both is expanded to. -/
def stripText : List Char :=
  "- x\n- y\n- a:\n  - x\n  - y\n  b:\n  - x\n  - y\n  - z\n  c: null\n".toList

theorem formed_overlay : Formed (.map overlay) := by
  have hlist : Formed (.map listOnly) :=
    .map rfl (List.forall_mem_singleton.2 (.str _)) (List.forall_mem_singleton.2 (.str _))
  refine .map (by decide) ?_ ?_
  · simp only [overlay, List.forall_mem_cons]
    exact ⟨.str _, .str _, .str _, nofun⟩
  · simp only [overlay, List.forall_mem_cons]
    exact ⟨.null, .str _, hlist, nofun⟩

theorem exists_written {text : List Char}
    (h : (expandValue loader v).toOption.any (fun w => w.render? = some text) = true) :
    ∃ w, expandValue loader v = .ok w ∧ w.render? = some text := by
  obtain ⟨w, hw, htext⟩ := (Option.any_eq_true _ _).1 h
  exact ⟨w, eq_ok_of_toOption hw, of_decide_eq_true htext⟩

theorem overrides_and_splices_of_overlay :
    let loader := load overlaid [⟨"/shelf"⟩] maxDepth []
    let contents := Contents overlaid [⟨"/shelf"⟩] maxDepth []
    (∃ base result, contents "base.yaml" (.map base) ∧
      Overrides loader (others overlay) base result ∧
      (Value.map result).render? = some overlayText) ∧
    (∃ w, contents "list.yaml" w ∧ w.render? = some "- x\n- y\n".toList) ∧
    ∃ parts, List.Forall₂ (Part overlaid [⟨"/shelf"⟩] maxDepth [])
      [.map listOnly, .map overlay] parts ∧
      (Value.seq parts.flatten).render? = some stripText := by
  intro loader contents
  obtain ⟨w, hw, htext⟩ : ∃ w, expandValue loader (.map overlay) = .ok w ∧
    w.render? = some overlayText :=
    exists_written (by decide +kernel)
  obtain ⟨list, hlist, hlines⟩ : ∃ w, expandValue loader (.map listOnly) = .ok w ∧
      w.render? = some "- x\n- y\n".toList := exists_written (by decide +kernel)
  obtain ⟨strip, hstrip, hitems⟩ : ∃ w,
    expandValue loader (.seq [.map listOnly, .map overlay]) = .ok w ∧
      w.render? = some stripText := exists_written (by decide +kernel)
  obtain ⟨hmappings, hsequences⟩ :=
    expandValue_overrides_and_splices overlaid [⟨"/shelf"⟩] maxDepth []
  obtain ⟨base, result, hbase, rfl, hoverrides⟩ :=
    ((hmappings overlay "base.yaml" rfl).1 formed_overlay nofun w).1 hw
  obtain ⟨parts, hparts, rfl⟩ := (hsequences _ strip).1 hstrip
  exact ⟨⟨base, result, hbase, hoverrides, htext⟩,
    ⟨list, ((hmappings listOnly "list.yaml" rfl).2 rfl list).1 hlist, hlines⟩, parts,
    hparts, hitems⟩

end TestOrchestrator.Include
