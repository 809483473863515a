import Mathlib.Data.List.Find
import TestOrchestrator.Proofs.Sameness
/-!
# Setting the values of keys

* `Value.putAll os es` sets the keys of `os` in `es`, one after another.
* `Value.forall_putAll`: what holds of all keys and all values goes on to hold.
* `Value.member?_putAll`, `Value.keys_putAll`: each key has its last value, and new keys come behind
  the old ones.
-/

namespace TestOrchestrator.Yaml.Value

variable {k l v : Value} {es os : Entries} {e : Value × Value}

/-- Sets the values of several keys, one after another. -/
def putAll (os es : Entries) : Entries := os.foldl (fun es e => put e.1 e.2 es) es

theorem keys_put : (put k v es).map Prod.fst =
    es.map Prod.fst ++ if es.any (fun e => same k e.1) then [] else [k] := by
  induction es with
  | nil => rfl
  | cons e es ih =>
    rw [put, List.any_cons]
    cases same k e.1 with
    | true => simp
    | false =>
      rw [Bool.false_or, if_neg Bool.false_ne_true, List.map_cons, ih]
      rfl

/-- What holds of all keys and of all values goes on to hold when a value is set. -/
theorem forall_put {K V : Value → Prop} (hk : K k) (hv : V v) (h : ∀ e ∈ es, K e.1 ∧ V e.2) :
    ∀ e ∈ put k v es, K e.1 ∧ V e.2 := by
  induction es with
  | nil => exact List.forall_mem_singleton.2 ⟨hk, hv⟩
  | cons e es ih =>
    obtain ⟨he, hes⟩ := List.forall_mem_cons.1 h
    rw [put]
    split
    · -- the key that was there stays
      exact List.forall_mem_cons.2 ⟨⟨he.1, hv⟩, hes⟩
    · exact List.forall_mem_cons.2 ⟨he, ih hes⟩

theorem forall_putAll {K V : Value → Prop} (hos : ∀ o ∈ os, K o.1 ∧ V o.2)
    (h : ∀ e ∈ es, K e.1 ∧ V e.2) : ∀ e ∈ putAll os es, K e.1 ∧ V e.2 := by
  induction os generalizing es with
  | nil => exact h
  | cons o os ih =>
    obtain ⟨ho, hos⟩ := List.forall_mem_cons.1 hos
    exact ih hos (forall_put ho.1 ho.2 h)

theorem any_key : (es.any fun e => same k e.1) = (es.map Prod.fst).any (same k) := by
  rw [List.any_map]
  rfl

theorem member?_cons : member? k (e :: es) = if same k e.1 then some e.2 else member? k es := by
  rw [member?, List.find?_cons]
  cases same k e.1 <;> rfl

section

variable {S : Value → Prop} (hS : SameOn S)
include hS

theorem member?_congr {k l : Value} (hk : S k) (hl : S l) (hes : ∀ e ∈ es, S e.1)
    (h : same k l = true) :
    member? k es = member? l es := by
  rw [member?, member?, List.find?_congr fun e he => hS.same_congr hk hl (hes e he) h]

/-- Entries are known by their keys and what is found for these. -/
theorem Keyed.eq_of_member? {fs : Entries} (hes : Keyed S es) (hfs : Keyed S fs)
    (hkeys : es.map Prod.fst = fs.map Prod.fst)
    (h : ∀ k ∈ es.map Prod.fst, member? k es = member? k fs) : es = fs := by
  have hlength : es.length = fs.length := by simpa using congrArg List.length hkeys
  refine List.ext_getElem hlength fun i hi hi' => ?_
  have hkey : es[i].1 = fs[i].1 := by simpa [hi, hi'] using congrArg (·[i]?) hkeys
  have hvalue := h _ (List.mem_map_of_mem (List.getElem_mem hi))
  rw [hes.member?_eq hS (List.getElem_mem hi), hkey,
    hfs.member?_eq hS (List.getElem_mem hi')] at hvalue
  exact Prod.ext hkey (Option.some.inj hvalue)

theorem member?_put (hl : S l) (hk : S k) (hes : ∀ e ∈ es, S e.1) :
    member? l (put k v es) = if same l k then some v else member? l es := by
  induction es with
  | nil => rw [put, member?_cons]
  | cons e es ih =>
    obtain ⟨he, hes⟩ := List.forall_mem_cons.1 hes
    rw [put]
    split
    · rename_i hke
      -- the key is that of the first entry, under another spelling
      rw [member?_cons, member?_cons, hS.comm hl hk, hS.same_congr hk he hl hke, hS.comm he hl]
      split <;> rfl
    · rename_i hke
      rw [member?_cons, member?_cons, ih hes]
      split
      · rename_i hle
        have hlk : same l k = false := by
          rw [Bool.eq_false_iff]
          intro hlk
          rw [hS.same_congr hl hk he hlk] at hle
          exact hke hle
        rw [if_neg (by simp [hlk])]
      · rfl

theorem Keyed.put (hes : Keyed S es) (hk : S k) : Keyed S (put k v es) := by
  obtain ⟨hdistinct, hS'⟩ := keyed_iff.1 hes
  rw [keyed_iff, keys_put, any_key]
  split
  · rw [List.append_nil]
    exact ⟨hdistinct, hS'⟩
  · rename_i hnew
    rw [List.pairwise_append]
    refine ⟨⟨hdistinct, List.pairwise_singleton _ _, fun l hl l' hl' => ?_⟩,
      List.forall_mem_append.2 ⟨hS', List.forall_mem_singleton.2 hk⟩⟩
    rw [List.mem_singleton.1 hl', hS.comm (hS' l hl) hk]
    simpa using List.any_eq_false.1 (Bool.eq_false_iff.2 hnew) l hl

theorem Keyed.putAll (hes : Keyed S es) (hos : ∀ o ∈ os, S o.1) : Keyed S (putAll os es) := by
  induction os generalizing es with
  | nil => exact hes
  | cons o os ih =>
    obtain ⟨ho, hos⟩ := List.forall_mem_cons.1 hos
    exact ih (hes.put hS ho) hos

/-- A key has its last value. -/
theorem member?_putAll (hos : Keyed S os) (hk : S k) (hes : Keyed S es) :
    member? k (putAll os es) = (member? k os).or (member? k es) := by
  induction os generalizing es with
  | nil => rfl
  | cons o os ih =>
    obtain ⟨ho, hrest⟩ := hos.of_cons
    have hput : member? k (Value.putAll (o :: os) es) =
        (member? k os).or (if same k o.1 then some o.2 else member? k es) := by
      rw [← member?_put hS hk ho hes.keys, ← ih hrest (hes.put hS ho)]
      rfl
    rw [hput, member?_cons]
    cases hko : same k o.1 with
    | false => simp
    | true =>
      have hnone : member? k os = none := by
        rw [member?_congr hS hk ho hrest.keys hko]
        refine member?_eq_none hS hrest.keys ho fun f hf => ?_
        rw [hS.comm (hrest.keys f hf) ho]
        exact hos.ne_of_mem hf
      simp [hnone]

/-- The keys that were there come first; the new ones come behind them, in their order. -/
theorem keys_putAll (hos : Keyed S os) (hes : Keyed S es) : (putAll os es).map Prod.fst =
    es.map Prod.fst ++ (os.map Prod.fst).filter fun k => !es.any fun e => same k e.1 := by
  induction os generalizing es with
  | nil => simp [Value.putAll]
  | cons o os ih =>
    obtain ⟨ho, hrest⟩ := hos.of_cons
    have hput : (Value.putAll (o :: os) es).map Prod.fst = _ := ih hrest (hes.put hS ho)
    -- none of the keys that follow is the one that is set
    have hnew : ∀ k ∈ os.map Prod.fst, ((put o.1 o.2 es).any fun e => same k e.1) = es.any fun e =>
        same k e.1 := by
      simp only [List.forall_mem_map]
      intro f hf
      have hother : same f.1 o.1 = false := by
        rw [hS.comm (hrest.keys f hf) ho]
        exact hos.ne_of_mem hf
      rw [any_key, any_key, keys_put, List.any_append]
      split <;> simp [hother]
    rw [hput, keys_put, List.append_assoc, List.map_cons, List.filter_cons]
    rw [List.filter_congr fun k hk => congrArg (!·) (hnew k hk)]
    cases es.any fun e => same o.1 e.1 <;> simp

end

end TestOrchestrator.Yaml.Value
