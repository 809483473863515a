import Mathlib.Data.List.Induction
import TestOrchestrator.Proofs.Searching
import TestOrchestrator.Resolution
/-!
# The include path of a run

The directories of an include path are told apart by their components, and each is kept where it
comes first.

* `Path.isFile_join`: directories with the same components have the same files in them, however they
  are spelled.
* `Firsts full dirs` says that `dirs` are the first occurrences in `full`. `firsts_foldl_addPath`:
  these are left when paths are added one by one.
* `find?_foldl_addPath`, `Include.locate_foldl_addPath`: a search finds the same among them as among
  all.
* `resolve_searchPath` puts it together for the parameters of a run.
-/

namespace TestOrchestrator

namespace Path

open Byte (dot slash)

/-! ## Components -/

theorem pieces_slash (bs : List UInt8) : pieces (slash :: bs) = pieces bs := by
  rw [pieces.eq_def]
  rfl

/-- A byte that is no slash stands alone before a slash or the end, and begins the next piece
otherwise. -/
theorem pieces_cons {b : UInt8} {bs : List UInt8} (hb : b ≠ slash) : pieces (b :: bs) =
    match bs, pieces bs with
    | c :: _, p :: ps => if c = slash then [b] :: p :: ps else (b :: p) :: ps
    | _, ps => [b] :: ps := by
  rw [pieces.eq_def]
  exact if_neg hb

theorem pieces_ne_nil {b : UInt8} {bs : List UInt8} (hb : b ≠ slash) : pieces (b :: bs) ≠ [] := by
  rw [pieces_cons hb]
  split
  · split <;> exact List.cons_ne_nil _ _
  · exact List.cons_ne_nil _ _

/-- A slash divides the pieces before it from those behind it. -/
theorem pieces_append (as bs : List UInt8) :
    pieces (as ++ slash :: bs) = pieces as ++ pieces bs := by
  induction as with
  | nil => exact pieces_slash bs
  | cons a as ih =>
    by_cases ha : a = slash
    · rw [ha, List.cons_append, pieces_slash, pieces_slash, ih]
    rw [List.cons_append, pieces_cons ha, pieces_cons ha, ih]
    cases as with
    | nil => cases pieces bs <;> simp [pieces]
    | cons c as =>
      cases hcs : pieces (c :: as) with
      | nil =>
        -- only slashes are before the one that divides
        have hc : c = slash := by_contra fun hc => pieces_ne_nil hc hcs
        cases pieces bs <;> simp [hc]
      | cons p ps =>
        simp only [List.cons_append]
        split <;> rfl

variable {p q d e : Path}

theorem same_iff : p.same q = true ↔ p.components = q.components := by simp [same]

/-- The name that a part of a path gives. -/
def Component.name? : Component → Option (List UInt8)
  | .name s => some s
  | _ => none

theorem names_components (p : Path) :
    p.components.filterMap Component.name? = (pieces p.bytes).filter (· ≠ [dot]) := by
  have hnames : ∀ ps : List (List UInt8), (ps.map Component.name).filterMap Component.name? =
      ps := by
    intro ps
    rw [List.filterMap_map]
    exact List.filterMap_some
  rw [components]
  split
  · exact hnames _
  · split <;> exact hnames _

theorem root_mem_components : Component.root ∈ p.components ↔ p.isAbsolute = true := by
  rw [components]
  split
  · simp_all
  · split <;> simp_all

theorem bytes_eq_nil_iff : p.bytes = [] ↔ p.text = "" := OsText.bytes_eq_nil_iff

/-- A relative path that is not empty begins with a piece. -/
theorem pieces_ne_nil_of_relative (hp : p.text ≠ "") (hrelative : p.isAbsolute = false) :
    pieces p.bytes ≠ [] := by
  obtain ⟨b, bs, hbs⟩ := List.exists_cons_of_ne_nil (bytes_eq_nil_iff.not.2 hp)
  rw [isAbsolute, hbs] at hrelative
  rw [hbs]
  exact pieces_ne_nil (by simpa using hrelative)

theorem components_eq_nil_iff : p.components = [] ↔ p.text = "" := by
  constructor
  · intro h
    by_contra hp
    have hrelative : p.isAbsolute = false := by
      rw [Bool.eq_false_iff, Ne, ← root_mem_components, h]
      exact List.not_mem_nil
    obtain ⟨s, ps, hps⟩ := List.exists_cons_of_ne_nil (pieces_ne_nil_of_relative hp hrelative)
    rw [components, hps, if_neg (by simp [hrelative])] at h
    split at h
    · cases h
    · rename_i hs
      have hs' : s ≠ [dot] := by simpa using hs
      simp [hs'] at h
  · intro h
    simp [components, isAbsolute, bytes_eq_nil_iff.2 h, pieces]

/-- What a path tells about itself that does not depend on its spelling. -/
theorem isAbsolute_congr (h : d.same e = true) : d.isAbsolute = e.isAbsolute := by
  rw [Bool.eq_iff_iff, ← root_mem_components, ← root_mem_components, same_iff.1 h]

theorem names_congr (h : d.same e = true) :
    (pieces d.bytes).filter (· ≠ [dot]) = (pieces e.bytes).filter (· ≠ [dot]) := by
  rw [← names_components, ← names_components, same_iff.1 h]

/-! ## Paths seen from a directory -/

theorem bytes_join (hq : q.isAbsolute = false) : (d.join q).bytes =
    if d.bytes = [] ∨ d.bytes.getLast? = some slash then d.bytes ++ q.bytes
    else d.bytes ++ slash :: q.bytes := by
  rw [join, if_neg (by simp [hq])]
  split
  · rfl
  · exact List.append_assoc d.bytes [slash] q.bytes

/-- The names of a relative path are behind those of the directory. -/
theorem pieces_join (hq : q.isAbsolute = false) :
    pieces (d.join q).bytes = pieces d.bytes ++ pieces q.bytes := by
  rw [bytes_join hq]
  split
  · rename_i hd
    rcases hd with hd | hd
    · rw [hd]
      rfl
    · obtain ⟨bs, hbs⟩ := List.getLast?_eq_some_iff.1 hd
      rw [hbs, List.append_assoc, List.singleton_append, pieces_append, pieces_append, pieces,
        List.append_nil]
  · exact pieces_append _ _

/-- A relative path ends as it does without the directory, unless it is empty. -/
theorem directory_join (hd : d.text ≠ "") (hq : q.isAbsolute = false) :
    (d.join q).steps.directory = (q.text = "" || q.steps.directory) := by
  by_cases hempty : q.text = ""
  · have hlast : (d.join q).bytes.getLast? = some slash := by
      rw [bytes_join hq, bytes_eq_nil_iff.2 hempty]
      split
      · rename_i hslash
        rw [List.append_nil]
        exact hslash.resolve_left (bytes_eq_nil_iff.not.2 hd)
      · exact List.getLast?_concat
    simp [steps, hlast, hempty]
  · have hnil : q.bytes ≠ [] := bytes_eq_nil_iff.not.2 hempty
    have hbytes : (d.join q).bytes.getLast? = q.bytes.getLast? := by
      rw [bytes_join hq]
      split
      · exact List.getLast?_append_of_ne_nil _ hnil
      · rw [List.append_cons, List.getLast?_append_of_ne_nil _ hnil]
    have hpieces : (pieces (d.join q).bytes).getLast? = (pieces q.bytes).getLast? := by
      rw [pieces_join hq, List.getLast?_append_of_ne_nil _ (pieces_ne_nil_of_relative hempty hq)]
    simp [steps, hbytes, hpieces, hempty]

theorem isAbsolute_join (hd : d.text ≠ "") (hq : q.isAbsolute = false) :
    (d.join q).isAbsolute = d.isAbsolute := by
  obtain ⟨b, bs, hbs⟩ := List.exists_cons_of_ne_nil (bytes_eq_nil_iff.not.2 hd)
  rw [isAbsolute, isAbsolute, bytes_join hq]
  split <;> simp [hbs]

/-- Seen from directories with the same components, a relative path goes the same way. -/
theorem steps_join (h : d.same e = true) (hd : d.text ≠ "") (he : e.text ≠ "")
    (hq : q.isAbsolute = false) :
    (d.join q).steps = (e.join q).steps := by
  have hdirectory : (d.join q).steps.directory = (e.join q).steps.directory := by
    rw [directory_join hd hq, directory_join he hq]
  have habsolute : (d.join q).isAbsolute = (e.join q).isAbsolute := by
    rw [isAbsolute_join hd hq, isAbsolute_join he hq, isAbsolute_congr h]
  have hnames : (pieces (d.join q).bytes).filter (· ≠ [dot]) =
      (pieces (e.join q).bytes).filter (· ≠ [dot]) := by
    rw [pieces_join hq, pieces_join hq, List.filter_append, List.filter_append, names_congr h]
  rw [Steps.mk.injEq]
  exact ⟨habsolute, congrArg (List.map OsText.mk) hnames, hdirectory⟩

/-- **Directories with the same components** have the same files in them. -/
theorem isFile_join (fs : FileSystem) (h : d.same e = true) (hq : q.isAbsolute = false) :
    fs.isFile (d.join q) = fs.isFile (e.join q) := by
  have hempty : d.text = "" ↔ e.text = "" := by
    rw [← components_eq_nil_iff, ← components_eq_nil_iff, same_iff.1 h]
  by_cases hd : d.text = ""
  · have hde : d = e := by
      cases d
      cases e
      simp_all
    rw [hde]
  · have he : e.text ≠ "" := fun he => hd (hempty.2 he)
    have hjoin : ∀ {p : Path}, p.text ≠ "" → (p.join q).text ≠ "" := by
      intro p hp
      rw [Ne, ← bytes_eq_nil_iff, bytes_join hq]
      split <;> simp [bytes_eq_nil_iff, hp]
    rw [FileSystem.isFile, FileSystem.isFile, steps_join h hd he hq]
    simp [hjoin hd, hjoin he]

end Path

/-! ## First occurrences -/

/-- The paths of a list that come first among those with their components, in the order of the
list. -/
structure Firsts (full dirs : List Path) : Prop where
  distinct : dirs.Pairwise fun p q => p.same q = false
  mem_iff : ∀ d, d ∈ dirs ↔ full.find? d.same = some d
  ordered : dirs.Pairwise fun p q => full.findIdx p.same < full.findIdx q.same

variable {full dirs : List Path} {p q : Path}

theorem Path.same_symm (h : p.same q = true) : q.same p = true :=
  Path.same_iff.2 (Path.same_iff.1 h).symm

theorem Path.same_self (p : Path) : p.same p = true := Path.same_iff.2 rfl

/-- Paths with the same components cannot be told apart by `same`. -/
theorem Path.same_congr (h : p.same q = true) : p.same = q.same := by
  funext r
  rw [Path.same, Path.same, Path.same_iff.1 h]

namespace Firsts

theorem mem_full (h : Firsts full dirs) (hp : p ∈ dirs) : p ∈ full :=
  List.mem_of_find?_eq_some ((h.mem_iff p).1 hp)

/-- Every path of the list has its first occurrence. -/
theorem any_iff (h : Firsts full dirs) (p : Path) : dirs.any p.same = full.any p.same := by
  rw [Bool.eq_iff_iff, List.any_eq_true, List.any_eq_true]
  constructor
  · rintro ⟨d, hd, hpd⟩
    exact ⟨d, h.mem_full hd, hpd⟩
  · rintro ⟨d, hd, hpd⟩
    obtain ⟨f, hf⟩ : ∃ f, full.find? p.same = some f :=
      Option.isSome_iff_exists.1 (List.find?_isSome.2 ⟨d, hd, hpd⟩)
    have hpf : p.same f = true := List.find?_some hf
    exact ⟨f, (h.mem_iff f).2 (Path.same_congr hpf ▸ hf), hpf⟩

theorem findIdx_lt (h : Firsts full dirs) (hp : p ∈ dirs) : full.findIdx p.same < full.length :=
  List.findIdx_lt_length_of_exists ⟨p, h.mem_full hp, p.same_self⟩

/-- One more path at the end is a first occurrence if it is not there. -/
theorem addPath (h : Firsts full dirs) (p : Path) : Firsts (full ++ [p]) (addPath dirs p) := by
  have hordered : dirs.Pairwise fun d e => (full ++ [p]).findIdx d.same <
      (full ++ [p]).findIdx e.same := by
    refine h.ordered.imp_of_mem fun hd he hlt => ?_
    rw [List.findIdx_append, List.findIdx_append, if_pos (h.findIdx_lt hd),
      if_pos (h.findIdx_lt he)]
    exact hlt
  rw [TestOrchestrator.addPath, h.any_iff]
  by_cases hany : full.any p.same = true
  · rw [if_pos hany]
    refine ⟨h.distinct, fun d => ?_, hordered⟩
    rw [h.mem_iff, List.find?_append]
    cases hd : full.find? d.same with
    | some x => rw [Option.some_or]
    | none =>
      refine iff_of_false nofun fun hp => ?_
      -- it would be the path that is there already
      obtain rfl : d = p := by simpa using List.mem_of_find?_eq_some hp
      obtain ⟨x, hx, hpx⟩ := List.any_eq_true.1 hany
      exact absurd hpx (List.find?_eq_none.1 hd x hx)
  · rw [if_neg hany]
    have hnew : ∀ x ∈ full, p.same x = false := by simpa using hany
    have hnone : full.find? p.same = none := List.find?_eq_none.2 fun x hx => by simp [hnew x hx]
    refine ⟨?_, fun d => ?_, ?_⟩
    · refine List.pairwise_append.2 ⟨h.distinct, List.pairwise_singleton _ _, fun d hd x hx => ?_⟩
      rw [List.mem_singleton.1 hx, Bool.eq_false_iff]
      intro hsame
      exact absurd (Path.same_symm hsame) (by simp [hnew d (h.mem_full hd)])
    · rw [List.mem_append, List.mem_singleton, h.mem_iff, List.find?_append]
      cases hd : full.find? d.same with
      | some x =>
        rw [Option.some_or, or_iff_left_iff_imp]
        rintro rfl
        cases hnone.symm.trans hd
      | none =>
        rw [Option.none_or]
        constructor
        · rintro (hd | rfl)
          · cases hd
          · exact List.find?_cons_of_pos d.same_self
        · intro hd
          exact .inr (List.mem_singleton.1 (List.mem_of_find?_eq_some hd))
    · refine List.pairwise_append.2 ⟨hordered, List.pairwise_singleton _ _, fun d hd x hx => ?_⟩
      have hlast : ¬full.findIdx p.same < full.length := by
        rw [List.findIdx_lt_length]
        rintro ⟨y, hy, hpy⟩
        simp [hnew y hy] at hpy
      rw [List.mem_singleton.1 hx, List.findIdx_append, List.findIdx_append,
        if_pos (h.findIdx_lt hd), if_neg hlast]
      exact Nat.lt_of_lt_of_le (h.findIdx_lt hd) (Nat.le_add_left _ _)

end Firsts

theorem firsts_foldl_addPath (full : List Path) : Firsts full (full.foldl addPath []) := by
  induction full using List.reverseRecOn with
  | nil => exact ⟨.nil, by simp, .nil⟩
  | append_singleton full p ih =>
    rw [List.foldl_append]
    exact ih.addPath p

/-- A search that cannot tell paths with the same components apart finds the same among first
occurrences. -/
theorem find?_foldl_addPath {f : Path → Bool} (hf : ∀ p q, p.same q = true → f p = f q)
    (full : List Path) :
    (full.foldl addPath []).find? f = full.find? f := by
  induction full using List.reverseRecOn with
  | nil => rfl
  | append_singleton full p ih =>
    rw [List.foldl_append, List.foldl_cons, List.foldl_nil, addPath,
      (firsts_foldl_addPath full).any_iff]
    by_cases hany : full.any p.same = true
    · obtain ⟨x, hx, hpx⟩ := List.any_eq_true.1 hany
      rw [if_pos hany, ih, List.find?_append]
      cases hfull : full.find? f with
      | some y => rw [Option.some_or]
      | none =>
        have hp : f p = false := by
          rw [hf p x hpx]
          simpa using List.find?_eq_none.1 hfull x hx
        simp [hp]
    · rw [if_neg hany, List.find?_append, List.find?_append, ih]

/-! ## Include paths -/

namespace Include

/-- **Nothing is lost with the repetitions**: each name is located where it was. -/
theorem locate_foldl_addPath (fs : FileSystem) (full : List Path) (name : String) :
    locate fs (full.foldl addPath []) name = locate fs full name := by
  have hplaces : (places (full.foldl addPath []) name).find? fs.isFile =
      (places full name).find? fs.isFile := by
    unfold places
    split
    · rfl
    · rename_i hrelative
      rw [List.find?_map, List.find?_map]
      congr 1
      exact find?_foldl_addPath (fun p q hpq => Path.isFile_join fs hpq (by simpa using hrelative))
        full
  rw [locate_eq, locate_eq, hplaces]

end Include

theorem forall₂_of_mapM_eq_ok {ε α β : Type} {f : α → Except ε β} {xs : List α} {ys : List β}
    (h : xs.mapM f = .ok ys) : List.Forall₂ (fun x y => f x = .ok y) xs ys := by
  induction xs generalizing ys with
  | nil =>
    cases h
    exact .nil
  | cons x xs ih =>
    rw [List.mapM_cons] at h
    obtain ⟨y, hy, h⟩ := Include.exists_of_bind_eq_ok h
    obtain ⟨ys', hys', h⟩ := Include.exists_of_bind_eq_ok h
    cases h
    exact .cons hy (ih hys')

theorem eq_ok_of_mapError {ε ε' α : Type} {f : ε → ε'} {x : Except ε α} {a : α}
    (h : x.mapError f = .ok a) :
    x = .ok a := by
  cases x <;> cases h
  rfl

theorem eq_of_checked {d d' : Definition} (h : checked d = .ok d') : d = d' := by
  unfold checked at h
  split at h
  · cases h
  · split at h
    · cases h
    · exact Except.ok.inj h

variable {fs : FileSystem} {home : Option Path} {params : Parameters} {r : ResolvedRun}

/-- Where included files are looked for, each directory as often as it is named. -/
def ResolvedRun.fullPath (r : ResolvedRun) (given : List Path) : List Path :=
  given ++ [r.baseDir, r.runFile.parent?.getD r.baseDir]

/-- What parameters that lead to a definition go through. -/
theorem exists_of_resolve (h : resolve fs home params = .ok r) : ∃ dir filename given raw text,
    params.dir = some dir ∧ params.filename = some filename ∧
      canonicalDirectory fs (dir.expandHome home) = .ok r.baseDir ∧
      absolute fs (filename.expandHome home) = .ok r.runFile ∧ fs.read? r.runFile = .ok raw ∧
      List.Forall₂ (fun d q => absolute fs (d.expandHome home) = .ok q) params.includeDirs given ∧
      r.includeDirs = (r.fullPath given).foldl addPath [] ∧
      Include.expand fs r.includeDirs raw = .ok text ∧
      Definition.ofYaml? (Text.Utf8.encode text) = some r.definition := by
  rw [resolve] at h
  cases hdir : params.dir with
  | none =>
    rw [hdir] at h
    cases h
  | some dir =>
  cases hfilename : params.filename with
  | none =>
    rw [hdir, hfilename] at h
    cases h
  | some filename =>
  rw [hdir, hfilename] at h
  obtain ⟨baseDir, hbase, h⟩ := Include.exists_of_bind_eq_ok h
  obtain ⟨runFile, hrun, h⟩ := Include.exists_of_bind_eq_ok h
  obtain ⟨raw, hraw, h⟩ := Include.exists_of_bind_eq_ok h
  obtain ⟨dirs, hdirs, h⟩ := Include.exists_of_bind_eq_ok h
  obtain ⟨text, htext, h⟩ := Include.exists_of_bind_eq_ok h
  obtain ⟨given, hgiven, hpath⟩ := Include.exists_of_bind_eq_ok hdirs
  cases hpath
  cases hdefinition : Definition.ofYaml? (Text.Utf8.encode text) with
  | none =>
    rw [hdefinition] at h
    cases h
  | some d =>
    rw [hdefinition] at h
    obtain ⟨d', hd', h⟩ := Include.exists_of_bind_eq_ok h
    cases h
    cases eq_of_checked hd'
    exact ⟨dir, filename, given, raw, text, rfl, rfl, hbase, hrun, eq_ok_of_mapError hraw,
      forall₂_of_mapM_eq_ok hgiven, rfl, eq_ok_of_mapError htext, hdefinition⟩

/-- **The include path of a run** has each directory where it is named first, and no other way to
look for files finds anything else: searching all directories as they are named, with their
repetitions, gives the same for every name, hence the same expansion and the same definition. -/
theorem resolve_searchPath (h : resolve fs home params = .ok r) : ∃ dir filename given raw text,
    params.dir = some dir ∧ params.filename = some filename ∧
      canonicalDirectory fs (dir.expandHome home) = .ok r.baseDir ∧
      absolute fs (filename.expandHome home) = .ok r.runFile ∧ fs.read? r.runFile = .ok raw ∧
      List.Forall₂ (fun d q => absolute fs (d.expandHome home) = .ok q) params.includeDirs given ∧
      Firsts (r.fullPath given) r.includeDirs ∧
      (∀ p : Path, r.includeDirs.any p.same = (r.fullPath given).any p.same) ∧
      (∀ name, Include.locate fs r.includeDirs name = Include.locate fs (r.fullPath given) name) ∧
      (∀ bytes, Include.expand fs r.includeDirs bytes =
        Include.expand fs (r.fullPath given) bytes) ∧
      Include.expand fs (r.fullPath given) raw = .ok text ∧
      Definition.ofYaml? (Text.Utf8.encode text) = some r.definition := by
  obtain ⟨dir, filename, given, raw, text, hdir, hfilename, hbase, hrun, hraw, hgiven, hpath, htext,
    hdefinition⟩ :=
    exists_of_resolve h
  have hlocate : ∀ name, Include.locate fs r.includeDirs name =
      Include.locate fs (r.fullPath given) name := by
    intro name
    rw [hpath, Include.locate_foldl_addPath]
  have hexpand := Include.expand_congr hlocate
  have hfirsts : Firsts (r.fullPath given) r.includeDirs := by
    rw [hpath]
    exact firsts_foldl_addPath _
  refine ⟨dir, filename, given, raw, text, hdir, hfilename, hbase, hrun, hraw, hgiven, hfirsts,
    hfirsts.any_iff,
    hlocate, hexpand, ?_, hdefinition⟩
  rw [← hexpand]
  exact htext

/-- A run whose include path names one directory in several ways. -/
def roundabout : FileSystem := Tree.toFileSystem ⟨["home"], [
  (["home"], .directory), (["home", "parts"], .directory), (["run"], .directory),
  (["home", "parts", "name.yaml"], .file (Text.Utf8.encode "kept\n".toList) false),
  (["run", "name.yaml"], .file (Text.Utf8.encode "hidden\n".toList) false),
  (["run", "run.yaml"], .file (Text.Utf8.encode "name: {include: name.yaml}\n".toList) false)]⟩

/-- The parameters of the run. -/
def roundaboutRun : Parameters where
  dir := some ⟨"/run/."⟩
  filename := some ⟨"/run/run.yaml"⟩
  includeDirs := [⟨"~/parts"⟩, ⟨"/home/parts/"⟩, ⟨"/run"⟩, ⟨"./parts"⟩]

theorem resolve_searchPath_of_roundabout :
    ∃ r, resolve roundabout (some ⟨"/home"⟩) roundaboutRun = .ok r ∧ r.definition.name = "kept" ∧
      r.includeDirs = [⟨"/home/parts"⟩, ⟨"/run"⟩] ∧ ∃ given raw text,
        List.Forall₂ (fun d q => absolute roundabout (d.expandHome (some ⟨"/home"⟩)) = .ok q)
          roundaboutRun.includeDirs given ∧
        Firsts (r.fullPath given) r.includeDirs ∧
        (∀ name, Include.locate roundabout r.includeDirs name =
          Include.locate roundabout (r.fullPath given) name) ∧
        Include.expand roundabout (r.fullPath given) raw = .ok text ∧
        Definition.ofYaml? (Text.Utf8.encode text) = some r.definition := by
  have hresolve : (resolve roundabout (some ⟨"/home"⟩) roundaboutRun).toOption.any (fun r =>
      r.definition.name = "kept" && r.includeDirs = [⟨"/home/parts"⟩, ⟨"/run"⟩]) =
        true := by decide +kernel
  obtain ⟨r, hr, hresolved⟩ := (Option.any_eq_true _ _).1 hresolve
  have hr' : resolve roundabout (some ⟨"/home"⟩) roundaboutRun = .ok r :=
    Include.eq_ok_of_toOption hr
  obtain ⟨hname, hdirs⟩ := Bool.and_eq_true_iff.1 hresolved
  obtain ⟨-, -, given, raw, text, -, -, -, -, -, hgiven, hfirsts, -, hlocate, -, htext,
    hdefinition⟩ :=
    resolve_searchPath hr'
  exact ⟨r, hr', of_decide_eq_true hname, of_decide_eq_true hdirs, given, raw, text, hgiven,
    hfirsts, hlocate, htext,
    hdefinition⟩

end TestOrchestrator
