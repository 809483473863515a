import Mathlib.Data.List.TakeWhile
import TestOrchestrator.Text.Blank
/-!
# Texts between blanks

`Trims cs text` says that `text` is what is left of `cs` without the blanks around it. There is just
one such text (`trim_eq_iff`).
-/

namespace TestOrchestrator.Text

variable {cs after : List Char} {d : Char}

theorem trimEnd_of_blank (h : ∀ c ∈ cs, isBlank c = true) : trimEnd cs = [] := by
  induction cs with
  | nil => rfl
  | cons c cs ih =>
    obtain ⟨hc, hcs⟩ := List.forall_mem_cons.1 h
    rw [trimEnd, ih hcs]
    exact if_pos hc

theorem trimEnd_append (hd : isBlank d = false) (hafter : ∀ c ∈ after, isBlank c = true)
    (cs : List Char) :
    trimEnd (cs ++ d :: after) = cs ++ [d] := by
  induction cs with
  | nil =>
    rw [List.nil_append, trimEnd, trimEnd_of_blank hafter, hd]
    rfl
  | cons c cs ih =>
    rw [List.cons_append, trimEnd, ih]
    cases cs <;> rfl

/-- A text is the other without the blanks around it: it has none at its own ends. -/
def Trims (cs text : List Char) : Prop :=
  ∃ before after, cs = before ++ text ++ after ∧ (∀ c ∈ before ++ after, isBlank c = true) ∧
    (∀ c ∈ text.head?, isBlank c = false) ∧ ∀ c ∈ text.getLast?, isBlank c = false

theorem Trims.trim_eq {text : List Char} (h : Trims cs text) : trim cs = text := by
  obtain ⟨before, after, rfl, hblank, hfirst, hlast⟩ := h
  obtain ⟨hbefore, hafter⟩ := List.forall_mem_append.1 hblank
  rw [trim, List.append_assoc, List.dropWhile_append_of_pos hbefore]
  rcases text.eq_nil_or_concat with rfl | ⟨init, d, rfl⟩
  · rw [List.nil_append, List.dropWhile_eq_nil_iff.2 hafter, trimEnd]
  · have hd : isBlank d = false := hlast d (by simp)
    have hstays : (init ++ d :: after).dropWhile isBlank = init ++ d :: after := by
      cases init with
      | nil => simp [hd]
      | cons c init => simp [hfirst c (by simp)]
    rw [List.concat_eq_append, List.append_assoc, List.singleton_append, hstays,
      trimEnd_append hd hafter]

theorem exists_trimEnd (cs : List Char) : ∃ after, cs = trimEnd cs ++ after ∧
    (∀ c ∈ after, isBlank c = true) ∧
    ∀ c ∈ (trimEnd cs).getLast?, isBlank c = false := by
  induction cs with
  | nil => exact ⟨[], rfl, by simp, by simp [trimEnd]⟩
  | cons c cs ih =>
    obtain ⟨after, hcs, hafter, hlast⟩ := ih
    cases hend : trimEnd cs with
    | nil =>
      rw [hend, List.nil_append] at hcs
      subst hcs
      rw [trimEnd, hend]
      cases hc : isBlank c with
      | true => exact ⟨c :: cs, rfl, List.forall_mem_cons.2 ⟨hc, hafter⟩, by simp⟩
      | false => exact ⟨cs, rfl, hafter, by simpa using hc⟩
    | cons d ds =>
      have hkeeps : trimEnd (c :: cs) = c :: d :: ds := by rw [trimEnd, hend]
      rw [hend] at hcs hlast
      rw [hkeeps]
      exact ⟨after, congrArg (c :: ·) hcs, hafter, by simpa using hlast⟩

theorem trims_trim (cs : List Char) : Trims cs (trim cs) := by
  obtain ⟨after, hrest, hafter, hlast⟩ := exists_trimEnd (cs.dropWhile isBlank)
  refine ⟨cs.takeWhile isBlank, after, ?_, ?_, fun c hc => ?_, hlast⟩
  · rw [List.append_assoc, trim, ← hrest, List.takeWhile_append_dropWhile]
  · exact List.forall_mem_append.2 ⟨fun c hc => List.mem_takeWhile_imp hc, hafter⟩
  · obtain ⟨ds, hds⟩ := List.head?_eq_some_iff.1 hc
    have hfirst : (cs.dropWhile isBlank).head? = some c := by
      rw [hrest, ← trim, hds]
      rfl
    have hnot := List.head?_dropWhile_not isBlank cs
    rw [hfirst] at hnot
    exact hnot

/-- **What is left between the blanks** is the one text that has none at its ends. -/
theorem trim_eq_iff {text : List Char} : trim cs = text ↔ Trims cs text :=
  ⟨fun h => h ▸ trims_trim cs, Trims.trim_eq⟩

end TestOrchestrator.Text
