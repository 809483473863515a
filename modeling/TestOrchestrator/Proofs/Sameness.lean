import Mathlib.Data.List.Forall2
import Mathlib.Data.List.Pairwise
import TestOrchestrator.Yaml.Value
/-!
# Values that are the same

* `Value.Formed v` says that the keys of each mapping in a value are distinct. This is so of all
  that is read.
* `Value.SameOn S` says that `same` is an equivalence on the values of a kind. `sameOn_formed`: it
  is one on the formed values. On others it is none, since a mapping with a key twice can be told
  from itself.
* `Value.Keyed S entries` says that entries have distinct keys, all of a kind.
-/

namespace TestOrchestrator.Yaml.Value

open Decimal

/-- A value in which the keys of each mapping are distinct. -/
inductive Formed : Value → Prop
  | null : Formed .null
  | bool (b : Bool) : Formed (.bool b)
  | int (n : Int) : Formed (.int n)
  | float (x : Binary64) : Formed (.float x)
  | str (s : String) : Formed (.str s)
  | seq {items : List Value} (all : ∀ v ∈ items, Formed v) : Formed (.seq items)
  | map {entries : Entries} (distinct : distinctKeys entries = true)
      (keys : ∀ e ∈ entries, Formed e.1)
      (values : ∀ e ∈ entries, Formed e.2) : Formed (.map entries)
  | tagged {name : String} {v : Value} (inner : Formed v) : Formed (.tagged name v)

variable {a b c k v : Value} {as bs cs es : Entries} {e f : Value × Value}

theorem formed_seq_iff {items : List Value} : Formed (.seq items) ↔ ∀ v ∈ items, Formed v := by
  constructor
  · rintro (_ | _ | _ | _ | _ | hitems)
    exact hitems
  · exact .seq

theorem formed_tagged_iff {name : String} : Formed (.tagged name v) ↔ Formed v := by
  constructor
  · rintro (_ | _ | _ | _ | _ | _ | _ | inner)
    exact inner
  · exact .tagged

theorem distinctKeys_iff : distinctKeys es = true ↔ es.Pairwise fun e f =>
  same e.1 f.1 = false := by
  induction es with
  | nil => simp [distinctKeys]
  | cons e es ih => simp [distinctKeys, ih]

/-! ## Sameness by shapes -/

theorem sameItems_iff {as bs : List Value} :
    sameItems as bs = true ↔ List.Forall₂ (fun a b => same a b = true) as bs := by
  induction as generalizing bs with
  | nil => cases bs <;> simp [sameItems]
  | cons a as ih => cases bs <;> simp [sameItems, ih]

theorem sameEntries_iff_find? : sameEntries as bs = true ↔
    ∀ a ∈ as, ∃ b, bs.find? (fun f => same a.1 f.1) = some b ∧ same a.2 b.2 = true := by
  induction as with
  | nil => simp [sameEntries]
  | cons a as ih =>
    rw [sameEntries, Bool.and_eq_true, ih, List.forall_mem_cons]
    cases bs.find? fun f => same a.1 f.1 <;> simp

/-- Values that are the same as themselves only. -/
inductive Single : Value → Prop
  | null : Single .null
  | bool (b : Bool) : Single (.bool b)
  | int (n : Int) : Single (.int n)
  | str (s : String) : Single (.str s)

theorem Single.same_iff (h : Single a) : same a b = true ↔ a = b := by
  cases h <;> cases b <;> simp [same]

theorem same_float_iff {x : Binary64} :
    same (.float x) b = true ↔ ∃ y, b = .float y ∧ x.sameNumber y = true := by
  cases b with
  | float y => exact ⟨fun h => ⟨y, rfl, h⟩, fun ⟨_, hy, h⟩ => by cases hy; exact h⟩
  | _ => exact iff_of_false nofun nofun

theorem same_seq_iff {items : List Value} : same (.seq items) b = true ↔
    ∃ bs, b = .seq bs ∧ List.Forall₂ (fun a b => same a b = true) items bs := by
  cases b with
  | seq bs =>
    show sameItems items bs = true ↔ _
    simp [sameItems_iff]
  | _ => exact iff_of_false nofun nofun

theorem same_map_iff :
    same (.map as) b = true ↔ ∃ bs, b = .map bs ∧ as.length = bs.length ∧
      sameEntries as bs = true := by
  cases b with
  | map bs =>
    show (decide (as.length = bs.length) && sameEntries as bs) = true ↔ _
    simp
  | _ => exact iff_of_false nofun nofun

theorem same_tagged_iff {name : String} :
    same (.tagged name a) b = true ↔ ∃ b', b = .tagged name b' ∧ same a b' = true := by
  cases b with
  | tagged t b' =>
    show (decide (name = t) && same a b') = true ↔ _
    rw [Bool.and_eq_true, decide_eq_true_eq]
    exact ⟨fun ⟨hname, h⟩ => ⟨b', by rw [hname], h⟩, fun ⟨_, hb, h⟩ => by cases hb; exact ⟨rfl, h⟩⟩
  | _ => exact iff_of_false nofun nofun

/-! ## Entries with distinct keys -/

/-- `same` is an equivalence on the values of a kind. -/
structure SameOn (S : Value → Prop) : Prop where
  refl : ∀ {a}, S a → same a a = true
  symm : ∀ {a b}, S a → S b → same a b = true → same b a = true
  trans : ∀ {a b c}, S a → S b → S c → same a b = true → same b c = true → same a c = true

/-- Entries with distinct keys of a kind. -/
structure Keyed (S : Value → Prop) (es : Entries) : Prop where
  distinct : distinctKeys es = true
  keys : ∀ e ∈ es, S e.1

theorem formed_map_iff : Formed (.map es) ↔ Keyed Formed es ∧ ∀ e ∈ es, Formed e.2 := by
  constructor
  · rintro (_ | _ | _ | _ | _ | _ | ⟨distinct, keys, values⟩)
    exact ⟨⟨distinct, keys⟩, values⟩
  · rintro ⟨⟨distinct, keys⟩, values⟩
    exact .map distinct keys values

section

variable {S : Value → Prop}

theorem Keyed.ne_of_mem (h : Keyed S (e :: es)) (hf : f ∈ es) : same e.1 f.1 = false :=
  (List.pairwise_cons.1 (distinctKeys_iff.1 h.distinct)).1 f hf

theorem Keyed.of_cons (h : Keyed S (e :: es)) : S e.1 ∧ Keyed S es :=
  ⟨h.keys e List.mem_cons_self, distinctKeys_iff.2
    (List.pairwise_cons.1 (distinctKeys_iff.1 h.distinct)).2,
    fun f hf => h.keys f (List.mem_cons_of_mem e hf)⟩

theorem Keyed.sublist (h : Keyed S es) (hsub : as.Sublist es) : Keyed S as :=
  ⟨distinctKeys_iff.2 ((distinctKeys_iff.1 h.distinct).sublist hsub), fun a ha =>
    h.keys a (hsub.subset ha)⟩

/-- Values make no difference. -/
theorem keyed_iff : Keyed S es ↔
    (es.map Prod.fst).Pairwise (fun a b => same a b = false) ∧ ∀ k ∈ es.map Prod.fst, S k := by
  rw [List.pairwise_map, List.forall_mem_map]
  exact ⟨fun h => ⟨distinctKeys_iff.1 h.distinct, h.keys⟩, fun h => ⟨distinctKeys_iff.2 h.1, h.2⟩⟩

theorem Keyed.of_keys (h : Keyed S es) (hkeys : as.map Prod.fst = es.map Prod.fst) :
    Keyed S as := by
  rw [keyed_iff, hkeys]
  exact keyed_iff.1 h

end

section

variable {S : Value → Prop} (hS : SameOn S)
include hS

theorem SameOn.comm (ha : S a) (hb : S b) : same a b = same b a := by
  rw [Bool.eq_iff_iff]
  exact ⟨hS.symm ha hb, hS.symm hb ha⟩

/-- Values that are the same are compared alike. -/
theorem SameOn.same_congr (ha : S a) (hb : S b) (hc : S c) (h : same a b = true) :
    same a c = same b c := by
  rw [Bool.eq_iff_iff]
  exact ⟨hS.trans hb ha hc (hS.symm ha hb h), hS.trans ha hb hc h⟩

/-- No two entries have the same key. -/
theorem Keyed.eq_of_same (hes : Keyed S es) (he : e ∈ es) (hf : f ∈ es) (h : same e.1 f.1 = true) :
    e = f := by
  have hsymm : Std.Symm fun e f : Value × Value => same e.1 f.1 = false ∧ same f.1 e.1 = false :=
    ⟨fun _ _ h => h.symm⟩
  have hpairwise : es.Pairwise fun e f => same e.1 f.1 = false ∧ same f.1 e.1 = false := by
    refine (distinctKeys_iff.1 hes.distinct).imp_of_mem fun he hf h => ⟨h, ?_⟩
    rw [hS.comm (hes.keys _ hf) (hes.keys _ he)]
    exact h
  by_contra hne
  have hother := hpairwise.forall he hf hne
  exact absurd h (by simp [hother.1])

/-- The entry that is found for a key is the one whose key is the same. -/
theorem Keyed.find?_eq_some_iff (hes : Keyed S es) (hk : S k) :
    es.find? (fun e => same k e.1) = some e ↔ e ∈ es ∧ same k e.1 = true := by
  constructor
  · intro h
    exact ⟨List.mem_of_find?_eq_some h,
      List.find?_some (p := fun e : Value × Value => same k e.1) h⟩
  · rintro ⟨he, hke⟩
    obtain ⟨f, hf⟩ : ∃ f, es.find? (fun e => same k e.1) = some f :=
      Option.isSome_iff_exists.1 (List.find?_isSome.2 ⟨e, he, hke⟩)
    have hkf : same k f.1 = true := List.find?_some (p := fun e : Value × Value => same k e.1) hf
    have hfes := List.mem_of_find?_eq_some hf
    have hef : same e.1 f.1 = true :=
      hS.trans (hes.keys e he) hk (hes.keys f hfes) (hS.symm hk (hes.keys e he) hke) hkf
    rw [hf, hes.eq_of_same hS he hfes hef]

theorem Keyed.member?_eq (hes : Keyed S es) (he : e ∈ es) : member? e.1 es = some e.2 := by
  rw [member?, (hes.find?_eq_some_iff hS (hes.keys e he)).2 ⟨he, hS.refl (hes.keys e he)⟩]
  rfl

theorem member?_eq_none (hes : ∀ e ∈ es, S e.1) (hk : S k) (h : ∀ e ∈ es, same e.1 k = false) :
    member? k es = none := by
  rw [member?, Option.map_eq_none_iff, List.find?_eq_none]
  intro e he
  rw [hS.comm hk (hes e he), h e he]
  exact Bool.false_ne_true

theorem sameEntries_iff (hbs : Keyed S bs) (has : ∀ a ∈ as, S a.1) : sameEntries as bs = true ↔
    ∀ a ∈ as, ∃ b ∈ bs, same a.1 b.1 = true ∧ same a.2 b.2 = true := by
  rw [sameEntries_iff_find?]
  refine forall₂_congr fun a ha => exists_congr fun b => ?_
  rw [hbs.find?_eq_some_iff hS (has a ha), and_assoc]

end

/-- What matches enough elements, each of them another one, leaves none out. -/
theorem exists_of_length_le {α β : Type} {M : α → β → Prop} {xs : List α} {ys : List β}
    (hall : ∀ x ∈ xs, ∃ y ∈ ys, M x y) (hone : xs.Pairwise fun x x' => ∀ y, M x y → ¬M x' y)
    (hlength : ys.length ≤ xs.length) : ∀ y ∈ ys, ∃ x ∈ xs, M x y := by
  induction xs generalizing ys with
  | nil =>
    cases ys with
    | nil => exact nofun
    | cons y ys => simp at hlength
  | cons x xs ih =>
    obtain ⟨hx, hxs⟩ := List.forall_mem_cons.1 hall
    obtain ⟨hother, hone⟩ := List.pairwise_cons.1 hone
    obtain ⟨y, hy, hxy⟩ := hx
    obtain ⟨before, after, rfl⟩ := List.append_of_mem hy
    -- the others match what is left
    have hrest : ∀ x' ∈ xs, ∃ z ∈ before ++ after, M x' z := by
      intro x' hx'
      obtain ⟨z, hz, hx'z⟩ := hxs x' hx'
      have hne : z ≠ y := fun h => hother x' hx' y hxy (h ▸ hx'z)
      exact ⟨z, by simpa [hne] using hz, hx'z⟩
    have hlength' : (before ++ after).length ≤ xs.length := by
      simp at hlength ⊢
      omega
    intro z hz
    by_cases hzy : z = y
    · exact ⟨x, List.mem_cons_self, hzy ▸ hxy⟩
    · obtain ⟨x', hx', hx'z⟩ := ih hrest hone hlength' z (by simpa [hzy] using hz)
      exact ⟨x', List.mem_cons_of_mem x hx', hx'z⟩

/-! ## Equivalence -/

/-- Formed values below a size. -/
def Below (n : Nat) (v : Value) : Prop := Formed v ∧ sizeOf v < n

theorem Below.items {n : Nat} {items : List Value} (h : Below (n + 1) (.seq items)) :
    ∀ v ∈ items, Below n v := by
  obtain ⟨hformed, hsize⟩ := h
  intro v hv
  have hlt := List.sizeOf_lt_of_mem hv
  simp at hsize
  exact ⟨formed_seq_iff.1 hformed v hv, by omega⟩

theorem sizeOf_lt_of_mem (he : e ∈ es) : sizeOf e.1 + sizeOf e.2 < sizeOf es := by
  have hlt := List.sizeOf_lt_of_mem he
  have hpair : sizeOf e = 1 + sizeOf e.1 + sizeOf e.2 := rfl
  omega

theorem Below.entries {n : Nat} (h : Below (n + 1) (.map es)) :
    Keyed (Below n) es ∧ ∀ e ∈ es, Below n e.2 := by
  obtain ⟨hformed, hsize⟩ := h
  obtain ⟨hkeyed, hvalues⟩ := formed_map_iff.1 hformed
  simp at hsize
  refine ⟨⟨hkeyed.distinct, fun e he => ⟨hkeyed.keys e he, ?_⟩⟩, fun e he => ⟨hvalues e he, ?_⟩⟩
  · have hlt := sizeOf_lt_of_mem he
    omega
  · have hlt := sizeOf_lt_of_mem he
    omega

theorem Below.inner {n : Nat} {name : String} (h : Below (n + 1) (.tagged name v)) : Below n v := by
  obtain ⟨hformed, hsize⟩ := h
  simp at hsize
  exact ⟨formed_tagged_iff.1 hformed, by omega⟩

theorem sameNumber_self (x : Binary64) : x.sameNumber x = true := by simp [Binary64.sameNumber]

theorem sameNumber_symm {x y : Binary64} (h : x.sameNumber y = true) : y.sameNumber x = true := by
  simp only [Binary64.sameNumber, Bool.or_eq_true, decide_eq_true_eq, Bool.and_eq_true] at h ⊢
  exact h.imp Eq.symm And.symm

theorem sameNumber_trans {x y z : Binary64} (h : x.sameNumber y = true)
    (h' : y.sameNumber z = true) :
    x.sameNumber z = true := by
  simp only [Binary64.sameNumber, Bool.or_eq_true, decide_eq_true_eq, Bool.and_eq_true] at h h' ⊢
  grind

section

variable {S : Value → Prop} (hS : SameOn S) {xs ys zs : List Value}
include hS

theorem forall₂_symm (hxs : ∀ x ∈ xs, S x) (hys : ∀ y ∈ ys, S y)
    (h : List.Forall₂ (fun a b => same a b = true) xs ys) :
      List.Forall₂ (fun a b => same a b = true) ys xs := by
  induction h with
  | nil => exact .nil
  | cons hxy _ ih =>
    obtain ⟨hx, hxs⟩ := List.forall_mem_cons.1 hxs
    obtain ⟨hy, hys⟩ := List.forall_mem_cons.1 hys
    exact .cons (hS.symm hx hy hxy) (ih hxs hys)

theorem forall₂_trans (hxs : ∀ x ∈ xs, S x) (hys : ∀ y ∈ ys, S y) (hzs : ∀ z ∈ zs, S z)
    (h : List.Forall₂ (fun a b => same a b = true) xs ys)
    (h' : List.Forall₂ (fun a b => same a b = true) ys zs) :
    List.Forall₂ (fun a b => same a b = true) xs zs := by
  induction h generalizing zs with
  | nil => exact h'
  | cons hxy _ ih =>
    obtain _ | ⟨hyz, h'⟩ := h'
    obtain ⟨hx, hxs⟩ := List.forall_mem_cons.1 hxs
    obtain ⟨hy, hys⟩ := List.forall_mem_cons.1 hys
    obtain ⟨hz, hzs⟩ := List.forall_mem_cons.1 hzs
    exact .cons (hS.trans hx hy hz hxy hyz) (ih hxs hys hzs h')

/-- Two mappings with as many entries each: if all entries of one are among those of the other, so
are all of the other among its own. -/
theorem sameEntries_symm (has : Keyed S as) (hbs : Keyed S bs) (has' : ∀ a ∈ as, S a.2)
    (hbs' : ∀ b ∈ bs, S b.2)
    (hlength : as.length = bs.length) (h : sameEntries as bs = true) : sameEntries bs as =
      true := by
  rw [sameEntries_iff hS hbs has.keys] at h
  rw [sameEntries_iff hS has hbs.keys]
  have hone : as.Pairwise fun a a' => ∀ b, (b ∈ bs ∧ same a.1 b.1 = true ∧ same a.2 b.2 = true) →
      ¬(b ∈ bs ∧ same a'.1 b.1 = true ∧ same a'.2 b.2 = true) := by
    refine (distinctKeys_iff.1 has.distinct).imp_of_mem fun {a a'} ha ha' hdistinct b hab ha'b => ?_
    have hkey : same a.1 a'.1 = true :=
      hS.trans (has.keys a ha) (hbs.keys b hab.1) (has.keys a' ha') hab.2.1
        (hS.symm (has.keys a' ha') (hbs.keys b hab.1) ha'b.2.1)
    rw [hdistinct] at hkey
    cases hkey
  have hall : ∀ a ∈ as, ∃ b ∈ bs, b ∈ bs ∧ same a.1 b.1 = true ∧ same a.2 b.2 = true := by
    intro a ha
    obtain ⟨b, hb, hab⟩ := h a ha
    exact ⟨b, hb, hb, hab⟩
  intro b hb
  obtain ⟨a, ha, -, hkey, hvalue⟩ := exists_of_length_le hall hone (Nat.le_of_eq hlength.symm) b hb
  exact ⟨a, ha, hS.symm (has.keys a ha) (hbs.keys b hb) hkey,
    hS.symm (has' a ha) (hbs' b hb) hvalue⟩

theorem sameEntries_trans (has : Keyed S as) (hbs : Keyed S bs) (hcs : Keyed S cs)
    (has' : ∀ a ∈ as, S a.2)
    (hbs' : ∀ b ∈ bs, S b.2) (hcs' : ∀ c ∈ cs, S c.2) (h : sameEntries as bs = true)
    (h' : sameEntries bs cs = true) : sameEntries as cs = true := by
  rw [sameEntries_iff hS hbs has.keys] at h
  rw [sameEntries_iff hS hcs hbs.keys] at h'
  rw [sameEntries_iff hS hcs has.keys]
  intro a ha
  obtain ⟨b, hb, hkey, hvalue⟩ := h a ha
  obtain ⟨c, hc, hkey', hvalue'⟩ := h' b hb
  exact ⟨c, hc, hS.trans (has.keys a ha) (hbs.keys b hb) (hcs.keys c hc) hkey hkey',
    hS.trans (has' a ha) (hbs' b hb) (hcs' c hc) hvalue hvalue'⟩

end

/-- What is an equivalence below a size is one up to it: values are compared through what is inside
them. -/
theorem SameOn.below_succ {n : Nat} (ih : SameOn (Below n)) : SameOn (Below (n + 1)) where
  refl := by
    intro a ha
    cases a with
    | null | bool | int | str => exact (Single.same_iff (by constructor)).2 rfl
    | float x => exact same_float_iff.2 ⟨x, rfl, sameNumber_self x⟩
    | seq items =>
      exact same_seq_iff.2 ⟨items, rfl, List.forall₂_same.2 fun v hv => ih.refl (ha.items v hv)⟩
    | map es =>
      refine same_map_iff.2 ⟨es, rfl, rfl,
        (sameEntries_iff ih ha.entries.1 ha.entries.1.keys).2 fun e he => ?_⟩
      exact ⟨e, he, ih.refl (ha.entries.1.keys e he), ih.refl (ha.entries.2 e he)⟩
    | tagged name v => exact same_tagged_iff.2 ⟨v, rfl, ih.refl ha.inner⟩
  symm := by
    intro a b ha hb h
    cases a with
    | null | bool | int | str =>
      obtain rfl := (Single.same_iff (by constructor)).1 h
      exact h
    | float x =>
      obtain ⟨y, rfl, hxy⟩ := same_float_iff.1 h
      exact same_float_iff.2 ⟨x, rfl, sameNumber_symm hxy⟩
    | seq items =>
      obtain ⟨bs, rfl, hitems⟩ := same_seq_iff.1 h
      exact same_seq_iff.2 ⟨items, rfl, forall₂_symm ih ha.items hb.items hitems⟩
    | map es =>
      obtain ⟨bs, rfl, hlength, hentries⟩ := same_map_iff.1 h
      refine same_map_iff.2 ⟨es, rfl, hlength.symm, ?_⟩
      exact sameEntries_symm ih ha.entries.1 hb.entries.1 ha.entries.2 hb.entries.2 hlength hentries
    | tagged name v =>
      obtain ⟨w, rfl, hvw⟩ := same_tagged_iff.1 h
      exact same_tagged_iff.2 ⟨v, rfl, ih.symm ha.inner hb.inner hvw⟩
  trans := by
    intro a b c ha hb hc h h'
    cases a with
    | null | bool | int | str =>
      obtain rfl := (Single.same_iff (by constructor)).1 h
      exact h'
    | float x =>
      obtain ⟨y, rfl, hxy⟩ := same_float_iff.1 h
      obtain ⟨z, rfl, hyz⟩ := same_float_iff.1 h'
      exact same_float_iff.2 ⟨z, rfl, sameNumber_trans hxy hyz⟩
    | seq items =>
      obtain ⟨bs, rfl, hitems⟩ := same_seq_iff.1 h
      obtain ⟨cs, rfl, hitems'⟩ := same_seq_iff.1 h'
      exact same_seq_iff.2 ⟨cs, rfl, forall₂_trans ih ha.items hb.items hc.items hitems hitems'⟩
    | map es =>
      obtain ⟨bs, rfl, hlength, hentries⟩ := same_map_iff.1 h
      obtain ⟨cs, rfl, hlength', hentries'⟩ := same_map_iff.1 h'
      refine same_map_iff.2 ⟨cs, rfl, hlength.trans hlength', ?_⟩
      exact sameEntries_trans ih ha.entries.1 hb.entries.1 hc.entries.1 ha.entries.2 hb.entries.2
        hc.entries.2
        hentries hentries'
    | tagged name v =>
      obtain ⟨w, rfl, hvw⟩ := same_tagged_iff.1 h
      obtain ⟨u, rfl, hwu⟩ := same_tagged_iff.1 h'
      exact same_tagged_iff.2 ⟨u, rfl, ih.trans ha.inner hb.inner hc.inner hvw hwu⟩

theorem sameOn_below (n : Nat) : SameOn (Below n) := by
  induction n with
  | zero =>
    exact ⟨fun ha => absurd ha.2 (Nat.not_lt_zero _), fun ha => absurd ha.2 (Nat.not_lt_zero _),
      fun ha => absurd ha.2 (Nat.not_lt_zero _)⟩
  | succ n ih => exact ih.below_succ

/-- **Sameness is an equivalence** on the values whose mappings have distinct keys. -/
theorem sameOn_formed : SameOn Formed where
  refl {a} ha := (sameOn_below (sizeOf a + 1)).refl ⟨ha, by omega⟩
  symm {a b} ha hb h := (sameOn_below (sizeOf a + sizeOf b + 1)).symm ⟨ha, by omega⟩
    ⟨hb, by omega⟩ h
  trans {a b c} ha hb hc h h' :=
    (sameOn_below (sizeOf a + sizeOf b + sizeOf c + 1)).trans (b := b) ⟨ha, by omega⟩ ⟨hb, by omega⟩
      ⟨hc, by omega⟩ h h'

example : let twice : Value := .map [(.null, .bool true), (.null, .bool false)]
    same twice twice = false := rfl

end TestOrchestrator.Yaml.Value
