import TestOrchestrator.Proofs.Inclusion
import TestOrchestrator.Proofs.ReadBack.Mirroring
import TestOrchestrator.Proofs.Setting
/-!
# Distinct keys in documents

No mapping that is read or expanded has a key twice.

* `Value.formed_of_ofBytes?`: what is read is formed.
* `Include.formed_expandValue`, `Include.loadsFormed_load`: so is what it is expanded to, whatever
  is loaded.
-/

namespace TestOrchestrator

namespace Yaml.Value

/-! ## Keys of what is read -/

variable {d : Document} {n : Node} {v : Value} {depth s s' : Nat}

theorem formed_of_isScalar (h : v.isScalar = true) : Formed v := by
  cases v with
  | null => exact .null
  | bool b => exact .bool b
  | int n => exact .int n
  | float x => exact .float x
  | str s => exact .str s
  | _ => cases h

theorem formed_withTag {name : Option String} (h : Formed v) : Formed (withTag name v) := by
  cases name with
  | none => exact h
  | some name => exact .tagged h

/-- **What is read is formed**: a mapping with a key twice is refused. -/
theorem formed_of_read (h : (read d depth n).run s = some (v, s')) : Formed v := by
  induction depth using Nat.strongRecOn generalizing n v s s' with
  | _ depth ih =>
    rcases read_cases h with ⟨p, style, cs, -, hv⟩ | ⟨p, items, k, vs, t, t', -, rfl, hvs, rfl⟩ |
        ⟨p, entries, k, es, t, t', -, rfl, hes, hdistinct, rfl⟩
    · obtain ⟨name, w, rfl, hw⟩ := exists_withTag hv
      exact formed_withTag (formed_of_isScalar hw)
    · have hitems := forall₂_of_run_mapM (P := fun _ w => Formed w) hvs fun m _ u w u' hw =>
        ih k (Nat.lt_succ_self k) hw
      refine formed_withTag (.seq fun w hw => ?_)
      obtain ⟨-, -, hformed⟩ := exists_of_mem_right hitems hw
      exact hformed
    · have hentries := forall₂_of_run_mapM (P := fun _ f => Formed f.1 ∧ Formed f.2) hes
        fun e _ u f u' hf => by
        obtain ⟨key, u₁, hkey, hf⟩ := Reading.exists_of_run_bind hf
        obtain ⟨value, u₂, hvalue, hf⟩ := Reading.exists_of_run_bind hf
        cases hf
        exact ⟨ih k (Nat.lt_succ_self k) hkey, ih k (Nat.lt_succ_self k) hvalue⟩
      have hformed : ∀ f ∈ es, Formed f.1 ∧ Formed f.2 := by
        intro f hf
        obtain ⟨-, -, hformed⟩ := exists_of_mem_right hentries hf
        exact hformed
      exact formed_withTag (.map hdistinct (fun f hf => (hformed f hf).1) fun f hf =>
        (hformed f hf).2)

theorem formed_of_ofBytes? {bytes : List UInt8} (h : ofBytes? bytes = some v) : Formed v := by
  obtain ⟨d, -, h⟩ := Option.bind_eq_some_iff.1 h
  obtain ⟨⟨v, s⟩, hrun, rfl⟩ := Option.map_eq_some_iff.1 h
  exact formed_of_read hrun

end Yaml.Value

namespace Include

open Yaml Value

variable {loader : String → Except IncludeError Value} {v w : Value} {entries os base : Entries}
  {fs : FileSystem}
  {dirs files : List Path} {name : String} {levels : Nat}

/-! ## Keys of what is expanded -/

theorem keyed_others (h : Formed (.map entries)) : Keyed Formed (others entries) :=
  (formed_map_iff.1 h).1.sublist List.filter_sublist

theorem keyed_expandEntries (h : Formed (.map entries))
    (hos : expandEntries loader entries = .ok os) :
    Keyed Formed os :=
  (keyed_others h).of_keys (keys_of_expandEntries hos)

/-- Loads only what is formed. -/
def LoadsFormed (loader : String → Except IncludeError Value) : Prop :=
  ∀ name w, loader name = .ok w → Formed w

theorem merged_eq_ok_iff {included : Value} (hos : os ≠ []) :
    merged name included os = .ok w ↔ ∃ base, included = .map base ∧ w = .map (putAll os base) := by
  obtain ⟨o, os, rfl⟩ := List.exists_cons_of_ne_nil hos
  cases included <;> simp [merged, putAll, eq_comm]

theorem formed_putAll (hos : Formed (.map os)) (hbase : Formed (.map base)) :
    Formed (.map (putAll os base)) := by
  obtain ⟨hokeyed, hovalues⟩ := formed_map_iff.1 hos
  obtain ⟨hkeyed, hvalues⟩ := formed_map_iff.1 hbase
  have hentries : ∀ e ∈ putAll os base, Formed e.1 ∧ Formed e.2 :=
    forall_putAll (fun o ho => ⟨hokeyed.keys o ho, hovalues o ho⟩) fun e he =>
      ⟨hkeyed.keys e he, hvalues e he⟩
  exact formed_map_iff.2 ⟨hkeyed.putAll sameOn_formed hokeyed.keys, fun e he => (hentries e he).2⟩

theorem formed_follow {target : Option Value} (hload : LoadsFormed loader) (hos : Formed (.map os))
    (h : follow loader target os = .ok w) : Formed w := by
  cases target with
  | none =>
    cases h
    exact hos
  | some t =>
    cases t with
    | str name =>
      obtain ⟨included, hincluded, h⟩ := exists_of_bind_eq_ok h
      have hformed := hload name included hincluded
      by_cases hne : os = []
      · subst hne
        cases h
        exact hformed
      · obtain ⟨base, rfl, rfl⟩ := (merged_eq_ok_iff hne).1 h
        exact formed_putAll hos hformed
    | _ => cases h

/-- **Expansion keeps keys apart.** -/
theorem formed_expandValue (hload : LoadsFormed loader) (hv : Formed v)
    (h : expandValue loader v = .ok w) :
    Formed w := by
  induction v using Value.induction generalizing w with
  | seq items ih =>
    rw [expandValue] at h
    obtain ⟨ws, hws, h⟩ := exists_of_bind_eq_ok h
    cases h
    obtain ⟨parts, hparts, rfl⟩ := expandItems_eq_ok_iff.1 hws
    refine formed_seq_iff.2 fun x hx => ?_
    obtain ⟨part, hpart, hx⟩ := List.mem_flatten.1 hx
    obtain ⟨v, hmem, w, hw, rfl⟩ := exists_of_mem_right hparts hpart
    exact forall_spliced (fun _ => formed_seq_iff.1)
      _ (ih v hmem (formed_seq_iff.1 hv v hmem) hw) x hx
  | map entries ih =>
    rw [expandValue] at h
    obtain ⟨os, hos, h⟩ := exists_of_bind_eq_ok h
    refine formed_follow hload (formed_map_iff.2 ⟨keyed_expandEntries hv hos, fun o ho => ?_⟩) h
    obtain ⟨e, he, -, hexpand⟩ := exists_of_mem_right (expandEntries_eq_ok_iff.1 hos) ho
    have hlisted := List.mem_of_mem_filter he
    exact (ih e hlisted).2 ((formed_map_iff.1 hv).2 e hlisted) hexpand
  | tagged name v ih =>
    rw [expandValue] at h
    obtain ⟨w', hw', h⟩ := exists_of_bind_eq_ok h
    cases h
    exact formed_tagged_iff.2 (ih (formed_tagged_iff.1 hv) hw')
  | _ =>
    cases h
    exact hv

/-- What is loaded was read and then expanded, however deep. -/
theorem loadsFormed_load : LoadsFormed (load fs dirs levels files) := by
  induction levels generalizing files with
  | zero => exact fun name w h => by cases h
  | succ levels ih =>
    intro name w h
    obtain ⟨file, doc, hopens, -, hdoc⟩ := load_succ_eq_ok_iff.1 h
    obtain ⟨bytes, -, hread⟩ := hopens.document
    exact formed_expandValue ih (formed_of_ofBytes? hread) hdoc

end Include

end TestOrchestrator
