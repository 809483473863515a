import TestOrchestrator.Proofs.ReadBack.Encoding
import TestOrchestrator.Variables
/-!
# Variables and their entries

The entries for some variables do not always show these variables: the name of one may hold an
equals sign, and a process takes what stands before the first one for the name.

* `Environ.beyond? t name` is what a process takes for the value of `name` in the entry of a longer
  name.
* `Environ.value?_ofTable`: a process finds the value of a variable, and the value beyond its name
  if the variable has none.
-/

namespace TestOrchestrator.Environ

open Text (Precedes behind? behind?_eq_some_iff cut? cut?_append_cons cut?_eq_none_iff
  cut?_eq_some_iff)
open Text.Utf8 (encode encode_append_cons encode_inj mem_encode_iff)

/-! ## One entry -/

theorem utf8EncodeChar_equals : String.utf8EncodeChar '=' = [Byte.equals] := rfl

/-- What begins with a text and a separator is cut behind that text. -/
theorem behind?_concat {α : Type} [DecidableEq α] {sep : α} {mark cs : List α} (h : sep ∉ mark) :
    behind? (mark ++ [sep]) cs =
      (cut? sep cs).bind fun (before, after) => if before = mark then some after else none := by
  ext rest
  rw [behind?_eq_some_iff, List.append_assoc, List.singleton_append, Option.bind_eq_some_iff]
  constructor
  · rintro rfl
    exact ⟨_, cut?_append_cons h rest, if_pos rfl⟩
  · rintro ⟨⟨before, after⟩, hcut, hrest⟩
    obtain ⟨rfl, hafter⟩ := Option.ite_none_right_eq_some.1 hrest
    cases hafter
    exact (cut?_eq_some_iff.1 hcut).1

/-- What is left of the name `n` behind `name` and an equals sign, with the value. -/
def leftover? (name n : String) (value : OsText) : Option OsText :=
  (behind? (name.toList ++ ['=']) n.toList).map fun cs => String.ofList cs ++ "=" ++ value

variable {name n : String}

theorem ofText_append_equals (cs : List Char) (value : OsText) :
    String.ofList cs ++ "=" ++ value = OsText.mk (encode cs ++ Byte.equals :: value.bytes) := by
  show OsText.mk (encode (String.ofList cs).toList ++ [Byte.equals] ++ value.bytes) = _
  rw [String.toList_ofList, List.append_assoc, List.singleton_append]

/-- The entry of `n` gives a value to `name` if they are the same, or if `n` goes on with an equals
sign behind `name`. -/
theorem behind?_mark (h : '=' ∉ name.toList) (value : OsText) :
    (behind? (mark name) (mark n ++ value.bytes)).map OsText.mk =
      if n = name then some value else leftover? name n value := by
  have hbytes : ∀ {cs : List Char}, '=' ∉ cs → Byte.equals ∉ encode cs := by
    intro cs hcs
    rwa [mem_encode_iff utf8EncodeChar_equals]
  rw [leftover?, mark, mark, behind?_concat (hbytes h), behind?_concat h, List.append_assoc,
    List.singleton_append]
  cases hcut : cut? '=' n.toList with
  | none =>
    rw [cut?_append_cons (hbytes (cut?_eq_none_iff.1 hcut))]
    by_cases hname : n = name <;> simp [hname, encode_inj, String.toList_inj]
  | some cut =>
    obtain ⟨before, after⟩ := cut
    obtain ⟨hn, hbefore⟩ := cut?_eq_some_iff.1 hcut
    have hne : n ≠ name := by
      rintro rfl
      simp [hn] at h
    rw [hn, encode_append_cons utf8EncodeChar_equals, List.append_assoc, List.cons_append,
      cut?_append_cons (hbytes hbefore), if_neg hne]
    by_cases hname : before = name.toList <;> simp [hname, encode_inj, ofText_append_equals]

/-- A name comes before those that go on behind it. -/
theorem precedes_of_leftover? {value t : OsText} (h : leftover? name n value = some t) :
    Precedes name n := by
  obtain ⟨cs, hcs, -⟩ := Option.map_eq_some_iff.1 h
  rw [Precedes, behind?_eq_some_iff.1 hcs, List.append_assoc]
  exact Text.precedes_append_cons name.toList '=' cs

/-! ## The entries of a table -/

/-- What is left of the first name that goes on with an equals sign behind `name`, with its
value. -/
def beyond? (t : Table OsText) (name : String) : Option OsText :=
  t.entries.findSome? fun (n, value) => leftover? name n value

/-- **A process finds the value of a variable**, and the value beyond its name if the variable has
none: shorter names come first. -/
theorem value?_ofTable (h : '=' ∉ name.toList) (t : Table OsText) :
    (ofTable t).value? name = (t.get? name).or (beyond? t name) := by
  obtain ⟨es, hsorted⟩ := t
  show (es.map _).findSome? _ = (es.lookup name).or (es.findSome? _)
  induction es with
  | nil => rfl
  | cons e es ih =>
    obtain ⟨n, value⟩ := e
    obtain ⟨hn, hes⟩ := List.pairwise_cons.1 hsorted
    rw [List.map_cons, List.findSome?_cons, List.findSome?_cons, List.lookup_cons, ih hes,
      behind?_mark h]
    by_cases hname : n = name
    · simp [hname]
    · have hbeq : (name == n) = false := by simpa using Ne.symm hname
      rw [if_neg hname, hbeq]
      cases hleft : leftover? name n value with
      | none => simp [hleft]
      | some t =>
        -- the names behind this one are longer still, or differ from `name` before its end
        have hnone : es.lookup name = none :=
          Table.lookup_eq_none_of_precedes fun p hp => (precedes_of_leftover? hleft).trans (hn p hp)
        simp [hleft, hnone]

end TestOrchestrator.Environ
