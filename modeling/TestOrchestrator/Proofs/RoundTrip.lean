import Mathlib.Data.List.Perm.Basic
import TestOrchestrator.Definition.Json
import TestOrchestrator.Proofs.Renderings
import TestOrchestrator.Proofs.SideBySide
/-!
# Definitions from their JSON

* `Table.ofList_of_perm`: a table is what its entries make, in whatever order they come.
* `Json.Reordered j k` says that values are the same but for the order of members, at any depth.
* `Json.Means read j a` says that a value is read as `a` whatever the order of its members. There is
  one lemma for each shape: `means_list`, `means_table`, and `Reorders.required`,
  `Reorders.optional` and `Reorders.text?` for the fields of a record.
* `Definition.ofJson?_toJson`: a definition comes back from its JSON, and from the text of it.
-/

namespace TestOrchestrator

open Text

variable {α : Type}

/-! ## Tables of entries in any order -/

namespace Table

variable {name : String} {a : α} {es ps : List (String × α)}

/-- An entry under a new name replaces none. -/
theorem insertEntry_perm (h : name ∉ es.map (·.1)) :
    (insertEntry name a es).Perm ((name, a) :: es) := by
  induction es with
  | nil => exact .refl _
  | cons e es ih =>
    obtain ⟨k, b⟩ := e
    rw [List.map_cons, List.mem_cons, not_or] at h
    rw [insertEntry, if_neg h.1]
    split
    · exact .refl _
    · exact ((ih h.2).cons _).trans (.swap _ _ _)

theorem insertAll_perm {t : Table α} (h : ((ps ++ t.entries).map (·.1)).Nodup) :
    (t.insertAll ps).entries.Perm (ps ++ t.entries) := by
  induction ps generalizing t with
  | nil => exact .refl _
  | cons p ps ih =>
    obtain ⟨name, a⟩ := p
    rw [List.cons_append, List.map_cons, List.nodup_cons] at h
    have hfresh : name ∉ t.entries.map (·.1) := fun hmem =>
      h.1 (List.map_append ▸ List.mem_append_right _ hmem)
    have hstep : (ps ++ (t.insert name a).entries).Perm ((name, a) :: (ps ++ t.entries)) :=
      ((insertEntry_perm hfresh).append_left ps).trans List.perm_middle
    have hnodup : ((ps ++ (t.insert name a).entries).map (·.1)).Nodup :=
      (hstep.map (·.1)).nodup_iff.2 (List.nodup_cons.2 h)
    exact (ih hnodup).trans hstep

theorem nodup_names (t : Table α) : (t.entries.map (·.1)).Nodup := by
  refine List.pairwise_map.2 (t.sorted.imp fun h heq => ?_)
  rw [heq] at h
  exact Precedes.irrefl _ h

/-- **A table is what its entries make**, in whatever order they come. -/
theorem ofList_of_perm {t : Table α} (h : ps.Perm t.entries) : ofList ps = t := by
  have hnodup : ((ps ++ (empty : Table α).entries).map (·.1)).Nodup := by
    rw [show (empty : Table α).entries = [] from rfl, List.append_nil]
    exact (h.map (·.1)).nodup_iff.2 t.nodup_names
  have hperm : (ofList ps).entries.Perm t.entries := by
    refine (insertAll_perm hnodup).trans ?_
    rw [show (empty : Table α).entries = [] from rfl, List.append_nil]
    exact h
  -- Two lists of entries in order cannot differ in their order alone.
  have hentries : (ofList ps).entries = t.entries :=
    hperm.eq_of_pairwise (fun p q _ _ hpq hqp => absurd (hpq.trans hqp) (Precedes.irrefl _))
      (ofList ps).sorted t.sorted
  cases t
  exact (Table.mk.injEq ..).mpr hentries

end Table

/-! ## Values whose members are in another order -/

namespace Json

mutual

/-- Values are the same but for the order of members, at any depth. -/
inductive Reordered : Json → Json → Prop
  | refl (j : Json) : Reordered j j
  | arr {js ks : List Json} (h : List.Forall₂ Reordered js ks) : Reordered (.arr js) (.arr ks)
  | obj {ms ns ns' : List (String × Json)} (h : List.Forall₂ ReorderedMember ms ns)
      (hperm : ns.Perm ns') :
    Reordered (.obj ms) (.obj ns')

/-- Members have one name, and values that are the same but for the order of members. -/
inductive ReorderedMember : String × Json → String × Json → Prop
  | intro {j k : Json} (name : String) (h : Reordered j k) : ReorderedMember (name, j) (name, k)

end

/-- A value is read as `a`, whatever the order of its members. -/
def Means (read : Json → Option α) (j : Json) (a : α) : Prop := ∀ k, j.Reordered k → read k = some a

variable {ms ns : Members} {names : List String} {key name : String} {j k : Json}
  {read : Json → Option α}
  {write : α → Json} {a : α}

theorem Means.self (h : Means read j a) : read j = some a := h j (.refl j)

theorem means_text (s : String) : Means text? (.str s) s := by
  rintro k ⟨⟩
  rfl

theorem means_nullable_text (s : String) : Means (nullable? text?) (.str s) (some s) := by
  rintro k ⟨⟩
  rfl

theorem Reordered.exists_items {js : List Json} (h : (Json.arr js).Reordered k) :
    ∃ ks, k = .arr ks ∧ List.Forall₂ Reordered js ks := by
  cases h with
  | refl => exact ⟨js, rfl, List.forall₂_same.2 fun j _ => .refl j⟩
  | arr h => exact ⟨_, rfl, h⟩

theorem Reordered.exists_members (h : (Json.obj ms).Reordered k) :
    ∃ ns ns', k = .obj ns' ∧ List.Forall₂ ReorderedMember ms ns ∧ ns.Perm ns' := by
  cases h with
  | refl => exact ⟨ms, ms, rfl, List.forall₂_same.2 fun m _ => .intro m.1 (.refl m.2), .refl _⟩
  | obj h hperm => exact ⟨_, _, rfl, h, hperm⟩

theorem means_list (h : ∀ a, Means read (write a) a) (as : List α) :
    Means (list? read) (.arr (as.map write)) as := by
  intro k hk
  obtain ⟨ks, rfl, hks⟩ := hk.exists_items
  rw [List.forall₂_map_left_iff] at hks
  exact mapM_of_forall₂ (hks.imp fun a k hk => h a k hk).flip

/-- Each entry is read by itself, so in the order of the members come the same entries. -/
theorem means_table (h : ∀ a, Means read (write a) a) (t : Table α) :
    Means (table? read) (ofTable write t) t := by
  intro k hk
  obtain ⟨ns, ns', rfl, hns, hperm⟩ := hk.exists_members
  let readMember (m : String × Json) : Option (String × α) := (read m.2).map (m.1, ·)
  have hread : List.Forall₂ (fun m e => readMember m = some e) ns t.entries := by
    rw [List.forall₂_map_left_iff] at hns
    refine (hns.imp fun e m hm => ?_).flip
    cases hm with
    | intro _ hm => exact Option.map_eq_some_iff.2 ⟨e.2, h e.2 _ hm, rfl⟩
  obtain ⟨ps, hps, hentries⟩ := List.perm_comp_forall₂ hperm.symm hread
  show (ns'.mapM readMember).map Table.ofList = some t
  rw [mapM_of_forall₂ hps, Option.map_some, Table.ofList_of_perm hentries]

/-! ## Records -/

theorem keys_eq_of_reordered (h : List.Forall₂ ReorderedMember ms ns) :
    ms.map (·.1) = ns.map (·.1) := by
  induction h with
  | nil => rfl
  | cons hm _ ih =>
    obtain ⟨name, -⟩ := hm
    rw [List.map_cons, List.map_cons, ih]

theorem lookup_of_mem (hms : (ms.map (·.1)).Nodup) (h : (key, j) ∈ ms) :
    ms.lookup key = some j := by
  induction ms with
  | nil => cases h
  | cons m ms ih =>
    obtain ⟨hm, hms⟩ := List.nodup_cons.1 hms
    rcases List.mem_cons.1 h with rfl | h
    · exact List.lookup_cons_self
    · have hne : key ≠ m.1 := by
        rintro rfl
        exact hm (List.mem_map.2 ⟨_, h, rfl⟩)
      rw [List.lookup_cons, beq_false_of_ne hne]
      exact ih hms h

theorem mem_of_lookup (h : ms.lookup key = some j) : (key, j) ∈ ms := by
  obtain ⟨before, after, rfl, -⟩ := List.lookup_eq_some_iff.1 h
  exact List.mem_append_right _ List.mem_cons_self

/-- Members are those of an object, in another order. -/
structure Reorders (ms ns : Members) : Prop where
  absent : ∀ key, ms.lookup key = none → ns.lookup key = none
  present : ∀ key j, ms.lookup key = some j → ∃ k, ns.lookup key = some k ∧ j.Reordered k

/-- The record that is read from an object whatever the order of its members. -/
theorem Reordered.exists_record? (h : (Json.obj ms).Reordered k)
    (hms : (ms.map (·.1)).Sublist names)
    (hnames : names.Nodup) : ∃ ns, k.record? names = some ns ∧ Reorders ms ns := by
  obtain ⟨ns, ns', rfl, hns, hperm⟩ := h.exists_members
  have hkeys : (ms.map (·.1)).Perm (ns'.map (·.1)) := keys_eq_of_reordered hns ▸ hperm.map (·.1)
  have hnodup : (ns'.map (·.1)).Nodup := hkeys.nodup_iff.1 (hms.nodup hnames)
  have hfields : ∀ m ∈ ns', names.contains m.1 = true := fun m hm =>
    List.contains_iff_mem.2 (hms.subset (hkeys.symm.subset (List.mem_map_of_mem hm)))
  refine ⟨ns', ?_, fun key hnone => ?_, fun key j hj => ?_⟩
  · rw [record?, fieldsOf_eq_filter hnodup, List.filter_eq_self.2 hfields]
  · refine List.lookup_eq_none_iff.2 fun m hm => ?_
    obtain ⟨m', hm', heq⟩ := List.mem_map.1 (hkeys.symm.subset (List.mem_map_of_mem hm))
    exact heq ▸ List.lookup_eq_none_iff.1 hnone m' hm'
  · obtain ⟨m, hm, hmember⟩ := exists_of_mem_left hns (mem_of_lookup hj)
    cases hmember with
    | intro _ h => exact ⟨_, lookup_of_mem hnodup (hperm.subset hm), h⟩

namespace Reorders

theorem required (h : Reorders ms ns) (hj : ms.lookup key = some j) (hread : Means read j a) :
    Json.required ns key read = some a := by
  obtain ⟨k, hk, hreordered⟩ := h.present key j hj
  rw [Json.required, hk]
  exact hread k hreordered

theorem optional (h : Reorders ms ns) (default : α) (hj : ms.lookup key = some j)
    (hread : Means read j a) :
    Json.optional ns key default read = some a := by
  obtain ⟨k, hk, hreordered⟩ := h.present key j hj
  rw [Json.optional, hk]
  exact hread k hreordered

/-- A member that is left out for an absent value is read as an absent value. -/
theorem text? (h : Reorders ms ns) {s : Option String} (hs : ms.lookup key = s.map .str) :
    Json.optional ns key none (nullable? Json.text?) = some s := by
  cases s with
  | none =>
    rw [Json.optional, h.absent key hs]
  | some s => exact h.optional none hs (means_nullable_text s)

end Reorders

end Json

/-! ## Records of a definition -/

open Json (Means)

theorem Params.means_toJson (p : Params) : Means ofJson? p.toJson p :=
  Json.means_table Json.means_text p

namespace TestSpec

theorem means_toJson (t : TestSpec) : Means ofJson? t.toJson t := by
  intro k hk
  -- An absent version leaves its member out, so the keys are some of the fields, in their order.
  have hkeys := (Json.keys_member? "version" .str t.version).append (.refl ["params"])
  obtain ⟨ns, hrecord, h⟩ : ∃ ns, k.record? fields = some ns ∧ _ := hk.exists_record? (by
    rw [List.cons_append, List.map_cons, List.map_append]
    exact hkeys.cons_cons "path") (by decide)
  have hpath : Json.required ns "path" Json.text? = some t.path :=
    h.required rfl (Json.means_text _)
  have hversion : Json.optional ns "version" none (Json.nullable? Json.text?) = some t.version :=
    h.text? (by
    simp [List.lookup_cons, List.lookup_append, Json.lookup_member?])
  have hparams : Json.optional ns "params" .empty Params.ofJson? = some t.params := h.optional _ (by
    simp [List.lookup_cons, List.lookup_append, Json.lookup_member?]) t.params.means_toJson
  simp only [ofJson?, hrecord, hpath, hversion, hparams, Option.bind_eq_bind, Option.bind_some]
  rfl

end TestSpec

namespace Ref

theorem means_toJson (r : Ref) : Means ofJson? r.toJson r := by
  intro k hk
  obtain ⟨ns, hrecord, h⟩ := hk.exists_record? (.refl fields) (by decide)
  have hname : Json.required ns "name" Json.text? = some r.name :=
    h.required rfl (Json.means_text _)
  have hparams : Json.optional ns "params" .empty Params.ofJson? = some r.params :=
    h.optional _ rfl r.params.means_toJson
  simp only [ofJson?, hrecord, hname, hparams, Option.bind_eq_bind, Option.bind_some]
  rfl

end Ref

namespace GroupSpec

theorem means_toJson (g : GroupSpec) : Means ofJson? g.toJson g := by
  intro k hk
  obtain ⟨ns, hrecord, h⟩ := hk.exists_record? (.refl fields) (by decide)
  have hparams : Json.optional ns "params" .empty Params.ofJson? = some g.params :=
    h.optional _ rfl g.params.means_toJson
  have htests : Json.optional ns "tests" [] (Json.list? Ref.ofJson?) = some g.tests :=
    h.optional _ rfl (Json.means_list Ref.means_toJson g.tests)
  have hgroups : Json.optional ns "groups" [] (Json.list? Ref.ofJson?) = some g.groups :=
    h.optional _ rfl (Json.means_list Ref.means_toJson g.groups)
  simp only [ofJson?, hrecord, hparams, htests, hgroups, Option.bind_eq_bind, Option.bind_some]
  rfl

end GroupSpec

namespace Binding

theorem means_toJson (b : Binding) : Means ofJson? b.toJson b := by
  intro k hk
  have hkeys :=
    ((Json.keys_member? "value" .str b.value).append (Json.keys_member? "env" .str b.env)).append
    (Json.keys_member? "description" .str b.description)
  obtain ⟨ns, hrecord, h⟩ : ∃ ns, k.record? fields = some ns ∧ _ := hk.exists_record? (by
    rw [List.map_append, List.map_append]
    exact hkeys) (by decide)
  have hvalue : Json.optional ns "value" none (Json.nullable? Json.text?) = some b.value :=
    h.text? (by
    simp [List.lookup_append, Json.lookup_member?])
  have henv : Json.optional ns "env" none (Json.nullable? Json.text?) = some b.env := h.text? (by
    simp [List.lookup_append, Json.lookup_member?])
  have hdescription : Json.optional ns "description" none (Json.nullable? Json.text?) =
      some b.description :=
    h.text? (by simp [List.lookup_append, Json.lookup_member?])
  simp only [ofJson?, hrecord, hvalue, henv, hdescription, Option.bind_eq_bind, Option.bind_some]
  rfl

end Binding

theorem Definition.means_toJson (d : Definition) : Means ofJson? d.toJson d := by
  intro k hk
  obtain ⟨ns, hrecord, h⟩ := hk.exists_record? (.refl fields) (by decide)
  have hname : Json.required ns "name" Json.text? = some d.name :=
    h.required rfl (Json.means_text _)
  have hversion : Json.optional ns "version" "" Json.text? = some d.version :=
    h.optional _ rfl (Json.means_text _)
  have htests : Json.optional ns "tests" .empty (Json.table? TestSpec.ofJson?) = some d.tests :=
    h.optional _ rfl (Json.means_table TestSpec.means_toJson d.tests)
  have hgroups : Json.optional ns "groups" .empty (Json.table? GroupSpec.ofJson?) = some d.groups :=
    h.optional _ rfl (Json.means_table GroupSpec.means_toJson d.groups)
  have hparams : Json.optional ns "params" .empty (Json.table? Binding.ofJson?) = some d.params :=
    h.optional _ rfl (Json.means_table Binding.means_toJson d.params)
  simp only [ofJson?, hrecord, hname, hversion, htests, hgroups, hparams, Option.bind_eq_bind,
    Option.bind_some]
  rfl

/-! ## The text of a definition -/

namespace Json

variable {ms : List (String × Json)} {write : α → Json}

theorem reread_obj (h : ∀ m ∈ ms, m.2.reread = m.2) : (obj ms).reread = .obj ms := by
  have hms : ms.map (fun m => (m.1, m.2.reread)) = ms.map id :=
    List.map_congr_left fun m hm => congrArg (m.1, ·) (h m hm)
  rw [reread, rereadMembers_eq, hms, List.map_id]

theorem reread_list (h : ∀ a, (write a).reread = write a) (as : List α) :
    (arr (as.map write)).reread = .arr (as.map write) := by
  rw [reread, rereadItems_eq, List.map_map]
  exact congrArg arr (List.map_congr_left fun a _ => h a)

theorem reread_ofTable (h : ∀ a, (write a).reread = write a) (t : Table α) :
    (ofTable write t).reread = ofTable write t := by
  refine reread_obj fun m hm => ?_
  obtain ⟨e, -, rfl⟩ := List.mem_map.1 hm
  exact h e.2

theorem reread_of_mem_member? {name : String} {a : Option α} (h : ∀ a, (write a).reread = write a) :
    ∀ m ∈ member? name write a, m.2.reread = m.2 := by
  cases a with
  | none => exact List.forall_mem_nil _
  | some a => exact List.forall_mem_singleton.2 (h a)

theorem reread_str (s : String) : (str s).reread = .str s := by
  rw [reread]

end Json

theorem Params.reread_toJson (p : Params) : p.toJson.reread = p.toJson :=
  Json.reread_ofTable Json.reread_str p

theorem TestSpec.reread_toJson (t : TestSpec) : t.toJson.reread = t.toJson := by
  refine Json.reread_obj (List.forall_mem_cons.2 ⟨Json.reread_str _,
    List.forall_mem_append.2 ⟨?_, ?_⟩⟩)
  · exact Json.reread_of_mem_member? Json.reread_str
  · exact List.forall_mem_singleton.2 t.params.reread_toJson

theorem Ref.reread_toJson (r : Ref) : r.toJson.reread = r.toJson :=
  Json.reread_obj (List.forall_mem_cons.2 ⟨Json.reread_str _,
    List.forall_mem_singleton.2 r.params.reread_toJson⟩)

theorem GroupSpec.reread_toJson (g : GroupSpec) : g.toJson.reread = g.toJson := by
  have hrefs := Json.reread_list Ref.reread_toJson
  exact Json.reread_obj (List.forall_mem_cons.2 ⟨g.params.reread_toJson, List.forall_mem_cons.2
    ⟨hrefs g.tests, List.forall_mem_singleton.2 (hrefs g.groups)⟩⟩)

theorem Binding.reread_toJson (b : Binding) : b.toJson.reread = b.toJson := by
  have hmember : ∀ name s, ∀ m ∈ Json.member? name .str s, m.2.reread = m.2 := fun _ _ =>
    Json.reread_of_mem_member? Json.reread_str
  exact Json.reread_obj (List.forall_mem_append.2
    ⟨List.forall_mem_append.2 ⟨hmember _ _, hmember _ _⟩, hmember _ _⟩)

namespace Definition

/-- A definition holds no numbers, so its JSON comes back from the text. -/
theorem reread_toJson (d : Definition) : d.toJson.reread = d.toJson := by
  refine Json.reread_obj ?_
  simp [Json.reread_str, Json.reread_ofTable TestSpec.reread_toJson,
    Json.reread_ofTable GroupSpec.reread_toJson, Json.reread_ofTable Binding.reread_toJson]

/-- **A definition comes back from its JSON**, whatever tests, groups and parameters it has and
whichever optional values are absent. The order of members does not matter, at any depth. It comes
back from the text of its JSON as well, on one line or on many. -/
theorem ofJson?_toJson (d : Definition) :
    ofJson? d.toJson = some d ∧ (∀ j, d.toJson.Reordered j → ofJson? j = some d) ∧
      ∀ text : String, text = d.toJson.render ∨ text = d.toJson.pretty →
        (Json.read? (Utf8.encode text.toList)).bind ofJson? = some d := by
  have hself : ofJson? d.toJson = some d := d.means_toJson.self
  refine ⟨hself, d.means_toJson, fun text htext => ?_⟩
  have hread : Json.read? (Utf8.encode text.toList) = some d.toJson := by
    rcases htext with rfl | rfl
    · rw [Json.read?_render, reread_toJson]
    · rw [Json.read?_pretty, reread_toJson]
  rw [hread, Option.bind_some, hself]

end Definition

end TestOrchestrator
